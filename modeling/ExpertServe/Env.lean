import Mathlib.Algebra.Order.Field.Basic
import Mathlib.Tactic.NormNum
import Mathlib.Tactic.Positivity

/-!
# Settings of the expert store

The environment switches the residency controllers read, with the defaults of the source. A switch the
source parses as a float is an element of the ordered field `α` that the counts live in; the source
checks no range, so any value is admitted. `Ctl` is the state of the margin controller.
-/

namespace ExpertServe

/-- `KT_TIER_FILL_POOL`: the experts a dropped slot may be filled with. -/
inductive FillPool where
  | gpu
  | resident
deriving DecidableEq

/-- The environment switches, under the source's names. -/
structure Env (α : Type*) [Field α] where
  ktRamExperts : ℤ := -1
  ktTierDynamic : Bool := false
  ktAdaptiveMargin : α := 1.3
  ktAdaptiveMinGain : α := 0.001
  ktAdaptiveMinEvents : α := 64
  ktAdaptiveMaxSwap : ℤ := 24
  ktAdaptiveIncremental : ℤ := 1
  ktAdaptiveAuto : Bool := false
  ktAdaptiveCovEma : α := 0.3
  ktAdaptiveCovLo : α := 0.80
  ktAdaptiveCovHi : α := 0.92
  ktAdaptiveMarginMin : α := 1.02
  ktAdaptiveMarginMax : α := 6
  ktAdaptiveCtlUp : α := 1.20
  ktAdaptiveCtlDown : α := 0.85
  ktTierRamMargin : α := 1.05
  ktTierRamMinGain : α := 0.00002
  ktTierMaxPromote : ℤ := 2
  ktTierMaxRamMove : ℤ := 4
  ktTierIncremental : ℤ := 1
  ktTierIncrementalMax : ℤ := 16
  ktTierFillPool : FillPool := .gpu
  ktGpuOnly : Bool := false
  ktEnergy : Bool := false
  ktEnergyPeriod : ℤ := 4
  ktEnergyMaxMoves : ℤ := 4
  ktEnergyMaxGpuLayers : ℤ := 1
  ktEnergyGpu : Bool := false
  ktEnergyMargin : α := 1.5
  ktEnergyMinGainMean : α := 1
  ktEnergyGpuMargin : α := 1.5
  ktEnergyGpuMinGainMean : α := 1

/-- The settings when nothing is set. -/
def Env.unset {α : Type*} [Field α] : Env α := {}

/-- `_KT_TIER_ENABLED`: the RAM tier has a size limit. -/
def Env.tierEnabled {α : Type*} [Field α] (env : Env α) : Bool := decide (0 ≤ env.ktRamExperts)

/-- The literal `1e-n`. -/
def eMinus {α : Type*} [Field α] (n : ℕ) : α := 1 / 10 ^ n

section Literals

variable {α : Type*} [Field α] [LinearOrder α] [IsStrictOrderedRing α]

theorem eMinus_pos (n : ℕ) : (0 : α) < eMinus n := by
  unfold eMinus
  positivity

theorem eMinus_le_one (n : ℕ) : (eMinus n : α) ≤ 1 := by
  unfold eMinus
  rw [div_le_one (by positivity)]
  exact one_le_pow₀ (by norm_num)

end Literals

/-- `_KT_ADAPT_CTL`: the state of the closed-loop margin controller. -/
structure Ctl (α : Type*) where
  margin : Option α := none
  ticks : ℕ := 0
  covEma : Option α := none

end ExpertServe
