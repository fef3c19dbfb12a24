import ExpertServe.Env
import ExpertServe.Lib.Rank
import ExpertServe.Lib.Updates

/-!
# A layer's residency state

`Method` is what the residency controllers read and write of one `KTEPWrapperMethod` and of the layer it
serves, once its device buffers exist. Masks are sets of logical experts. Weight bytes are modelled by
whose they are: `slots s` is the expert whose weights sit in physical slot `s` of the layer, `none` for
bytes that are no expert's.

* `Method.boot`: the state `__init__`, `create_weights` and `process_weights_after_loading` leave;
* `load`: the scratch layer a full context streams together for a restage;
* `updateGpuExpertMappings`, `copyExpertsWeights`: the tables and slots a full restage writes.
-/

namespace ExpertServe

open Lib

variable {E : ℕ}

/-- The quantisation a full context was built for. -/
inductive Quant where
  | mxfp4
  | w4afp8
  | fp8
  | fp8Channel
  | bf16
  | int4
deriving DecidableEq

/-- The kt wrapper of the rank that owns the CPU store: its pinned skip mask, and the experts whose bytes
the store holds. -/
structure Wrapper (E : ℕ) where
  gpuExpertsMask : Finset (Fin E)
  staged : Finset (Fin E)

/-- One layer's residency state on one rank. -/
structure Method (E : ℕ) where
  tpRank : ℕ
  numGpuExperts : ℕ
  gpuExpertsMask : Finset (Fin E)
  gpuExpertsMaskCuda : Finset (Fin E)
  ramExpertsMask : Finset (Fin E)
  ramExpertsMaskCuda : Finset (Fin E)
  logicalToGpuIndex : Fin E → ℤ
  logicalToGpuIndexCuda : Fin E → ℤ
  gpuIndexToLogical : List (Fin E)
  slots : ℕ → Option (Fin E)
  wrapper : Option (Wrapper E)

/-! ## Tables -/

/-- The mapping from a selected expert to its position; a repeated expert keeps its last one. -/
def logicalToDstIndex (selected : List (Fin E)) : Fin E → Option ℕ :=
  updates (fun _ => none) (selected.zipIdx.map fun p => (p.1, some p.2))

/-- `update_gpu_expert_mappings`: the mask and the two tables of a selection, slots numbered by position. -/
def updateGpuExpertMappings (selected : List (Fin E)) : Finset (Fin E) × (Fin E → ℤ) × List (Fin E) :=
  (selected.toFinset,
    fun e => match logicalToDstIndex selected e with
      | some i => (i : ℤ)
      | none => -1,
    selected)

/-- `copy_experts_weights_*`: every selected expert's scratch bytes into the slot of its position. -/
def copyExpertsWeights (src : Fin E → Option (Fin E)) (selected : List (Fin E)) (slots : ℕ → Option (Fin E)) :
    ℕ → Option (Fin E) := fun s =>
  match selected[s]? with
  | some e => if logicalToDstIndex selected e = some s then src e else slots s
  | none => slots s

/-! ## The CPU store and the scratch layer -/

/-- The bytes the CPU store gives for an expert. -/
def cpuBytes (store : Finset (Fin E)) (e : Fin E) : Option (Fin E) := if e ∈ store then some e else none

/-- The bytes of the slot a resident expert's index names. -/
def Method.residentRow (m : Method E) (e : Fin E) : Option (Fin E) := m.slots (m.logicalToGpuIndex e).toNat

/-- `SharedFullContext.load`: the scratch layer, row by logical expert. INT4 Marlin streams every expert
from the CPU store; W4AFP8 does too and then overlays the residents from the decode layer, or streams only
the experts asked for; the others take residents from the decode layer and stream the rest. -/
def load (q : Quant) (store : Finset (Fin E)) (m : Method E) (onlyExperts : Option (List (Fin E))) :
    Fin E → Option (Fin E) := fun e =>
  match q, onlyExperts with
  | .int4, _ => cpuBytes store e
  | .w4afp8, some add => if e ∈ add then cpuBytes store e else none
  | _, _ => if e ∈ m.gpuExpertsMask then m.residentRow e else cpuBytes store e

/-! ## The skip mask -/

section SkipMask

variable {α : Type*} [Field α]

/-- `kt_cpu_skip_mask`: the experts the CPU side must not compute. -/
def Method.ktCpuSkipMask (env : Env α) (m : Method E) : Finset (Fin E) :=
  if env.tierEnabled then m.ramExpertsMaskᶜ else m.gpuExpertsMask

/-- `update_kt_wrapper_masks`: the pinned mask of the wrapper, if this rank has one. -/
def updateKtWrapperMasks (w : Option (Wrapper E)) (mask : Finset (Fin E)) : Option (Wrapper E) :=
  w.map fun w => { w with gpuExpertsMask := mask }

/-- Rank 0 hands the skip mask of its current tiers to the wrapper. -/
def Method.refreshWrapper (env : Env α) (m : Method E) : Method E :=
  { m with wrapper := if m.tpRank = 0 then updateKtWrapperMasks m.wrapper (m.ktCpuSkipMask env) else m.wrapper }

end SkipMask

/-! ## Boot -/

section Boot

variable {α : Type*} [Field α]

/-- `_kt_build_ram_tier_mask`: the hottest experts of the ranking that are not on the GPU, up to the size of
the tier; without a ranking, lowest id first. -/
def ktBuildRamTierMask (env : Env α) (ranking : Option (List (Fin E))) (gpuMask : Finset (Fin E)) :
    Finset (Fin E) :=
  let budget := min env.ktRamExperts ((E : ℤ) - gpuMask.card)
  if budget ≤ 0 then ∅
  else
    let order := ranking.getD (List.finRange E)
    ((order.filter (· ∉ gpuMask)).take budget.toNat).toFinset

/-- The experts the CPU store stages at load: the RAM tier; without a RAM limit every expert under the
adaptive cache, and otherwise those not on the GPU. -/
def loadStaged (env : Env α) (adaptive : Bool) (gpuMask ramMask : Finset (Fin E)) : Finset (Fin E) :=
  if env.tierEnabled then ramMask else if adaptive then Finset.univ else gpuMaskᶜ

/-- The state of a layer after boot. -/
def Method.boot (env : Env α) (adaptive : Bool) (ranking : Option (List (Fin E))) (tpRank : ℕ)
    (gpuMask : Finset (Fin E)) : Method E :=
  let ramMask := if env.tierEnabled then ktBuildRamTierMask env ranking gpuMask else gpuMaskᶜ
  let index := (updateGpuExpertMappings (whereTrue gpuMask)).2.1
  { tpRank := tpRank
    numGpuExperts := gpuMask.card
    gpuExpertsMask := gpuMask
    gpuExpertsMaskCuda := gpuMask
    ramExpertsMask := ramMask
    ramExpertsMaskCuda := ramMask
    logicalToGpuIndex := index
    logicalToGpuIndexCuda := index
    gpuIndexToLogical := whereTrue gpuMask
    slots := fun s => (whereTrue gpuMask)[s]?
    wrapper := if tpRank = 0 then
      some { gpuExpertsMask := if env.tierEnabled then ramMaskᶜ else gpuMask
             staged := loadStaged env adaptive gpuMask ramMask } else none }

end Boot

end ExpertServe
