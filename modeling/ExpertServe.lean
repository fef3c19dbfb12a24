import ExpertServe.Lib.Run
import ExpertServe.Tick.TwoTier
import ExpertServe.Lib.Seating
import ExpertServe.Tick.Ranks
import ExpertServe.Tick.Budget
import ExpertServe.Forward.Prefetch
import ExpertServe.Forward.Apply
import ExpertServe.Forward.GpuOnly
import ExpertServe.Forward.PredTopP
import ExpertServe.Forward.Staging
import ExpertServe.Background.Prefetcher
import ExpertServe.Batch.KeepK
import ExpertServe.Attention.Handover
import ExpertServe.Kernel.RoundTrip
import ExpertServe.Kernel.StreamLoads
import ExpertServe.Policy.AdaptiveLaws
import ExpertServe.Policy.BatchLaws
import ExpertServe.Forward.Preference
import ExpertServe.Policy.SpeedDial
import ExpertServe.Tick.EnergyScan
import ExpertServe.Tick.EnergyModel
import ExpertServe.Tick.EnergySettles
import ExpertServe.Residency.Abort
import ExpertServe.Kernel.GptqRepack
import ExpertServe.Kernel.BootStaging
import ExpertServe.Attention.DraftSteps
import ExpertServe.Forward.GateStack
import ExpertServe.Boot.HardwareProfile
import ExpertServe.Batch.TierIsolation
import ExpertServe.Batch.PrefillAdder
import ExpertServe.Kernel.WeightSums
import ExpertServe.Background.TaskQueue
import ExpertServe.Residency.Pipeline
import ExpertServe.Kernel.StoreShm
import ExpertServe.Policy.ScoreState
import ExpertServe.Policy.Simulator
import ExpertServe.Policy.HybridSplit
import ExpertServe.Kernel.Prequant
import ExpertServe.Batch.Admission
