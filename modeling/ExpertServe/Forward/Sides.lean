import ExpertServe.Residency.Store

/-!
# The two sides of a layer

A routed id of a layer is computed by the GPU when its remapped id is a slot, and by the CPU kernel when the
wrapper's pinned mask does not skip it. The CPU kernel is a library; what it does with an id is `CpuKernel`.

* `Method.gpuRuns_iff`, `Method.cpuRuns_iff`: which experts each side computes, in terms of the tiers.
-/

namespace ExpertServe

open Lib

variable {E : ℕ}

/-- `mask_and_remap_expert_ids`, one id: a GPU expert to its slot, any other id to -1. -/
def maskAndRemapExpertIds (gpuExpertsMask : Finset (Fin E)) (logicalToGpuIndex : Fin E → ℤ) (id : Fin E) : ℤ :=
  if id ∈ gpuExpertsMask then logicalToGpuIndex id else -1

/-- The CPU kernel's test on a submitted id: a negative id is dropped, and so is an expert of the mask. -/
structure CpuKernel (E : ℕ) where
  shouldSkipExpert : Finset (Fin E) → ℤ → Bool
  skip_neg : ∀ mask id, id < 0 → shouldSkipExpert mask id = true
  skip_expert : ∀ mask (e : Fin E), shouldSkipExpert mask (e : ℤ) = decide (e ∈ mask)

/-- A CPU kernel that drops every id that is no expert. -/
def CpuKernel.strict (E : ℕ) : CpuKernel E where
  shouldSkipExpert mask id := decide (∀ e : Fin E, (e : ℤ) = id → e ∈ mask)
  skip_neg mask id hid := decide_eq_true fun e he => absurd hid (by omega)
  skip_expert mask e := decide_eq_decide.mpr
    ⟨fun h => h e rfl, fun h e' he => (Fin.ext (by exact_mod_cast he) : e' = e) ▸ h⟩

namespace Method

/-- The GPU side computes the expert. -/
def gpuRuns (m : Method E) (e : Fin E) : Prop :=
  0 ≤ maskAndRemapExpertIds m.gpuExpertsMaskCuda m.logicalToGpuIndexCuda e

/-- The CPU side of this rank computes the expert. -/
def cpuRuns (cpu : CpuKernel E) (m : Method E) (e : Fin E) : Prop :=
  ∃ w, m.wrapper = some w ∧ cpu.shouldSkipExpert w.gpuExpertsMask (e : ℤ) = false

section

variable {m : Method E} {n : ℕ} {α : Type*} [Field α] {env : Env α} {cpu : CpuKernel E} {e : Fin E}

/-- The GPU computes exactly the experts of the GPU mask. -/
theorem gpuRuns_iff (hm : m.Seats n) : m.gpuRuns e ↔ e ∈ m.gpuExpertsMask := by
  obtain ⟨t, ht, -, -⟩ := hm
  unfold gpuRuns maskAndRemapExpertIds
  rw [ht.maskCuda, ht.indexCuda, ht.index, ht.mask]
  by_cases he : e ∈ t.residents
  · rw [if_pos he]
    exact ⟨fun _ => he, fun _ => Seating.index_nonneg_iff.mpr (Seating.mem_residents.mp he)⟩
  · rw [if_neg he]
    exact ⟨fun h => absurd h (by decide), fun h => absurd h he⟩

/-- The CPU computes exactly the experts the skip mask of the current tiers leaves. -/
theorem cpuRuns_iff (hm : m.Wired env) (h0 : m.tpRank = 0) : m.cpuRuns cpu e ↔ e ∉ m.ktCpuSkipMask env := by
  obtain ⟨w, hw⟩ := Option.isSome_iff_exists.mp (hm.owner.mpr h0)
  unfold cpuRuns
  rw [← hm.mask w hw, ← decide_eq_false_iff_not, ← cpu.skip_expert]
  refine ⟨?_, fun h => ⟨w, hw, h⟩⟩
  rintro ⟨w', hw', h⟩
  obtain rfl := Option.some.inj (hw.symm.trans hw')
  exact h

end

end Method

end ExpertServe
