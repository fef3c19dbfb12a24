import ExpertServe.Residency.Restage

/-!
# The CPU store under moves

`evict_expert`, `stage_expert` and `promote_expert` of the kt wrapper, each of which may raise. What a
raising call leaves of the expert's bytes is the `kept` flag of its `Outcome`; no other expert's bytes are
touched.
-/

namespace ExpertServe

variable {E : ℕ}

/-- How a call into the CPU store ends: it returns, or it raises with the expert's bytes there or not. -/
inductive Outcome where
  | ok
  | raised (kept : Bool)
deriving DecidableEq

namespace Wrapper

variable {w : Wrapper E} {e i : Fin E} {o : Outcome}

/-- `evict_expert`: release one expert's bytes. -/
def evictExpert (w : Wrapper E) (e : Fin E) : Outcome → Wrapper E
  | .raised true => w
  | _ => { w with staged := w.staged.erase e }

/-- `stage_expert`, and `promote_expert` after its read: write one expert's bytes. -/
def stageExpert (w : Wrapper E) (e : Fin E) : Outcome → Wrapper E
  | .raised false => { w with staged := w.staged.erase e }
  | _ => { w with staged := insert e w.staged }

@[simp] theorem evictExpert_mask : (w.evictExpert e o).gpuExpertsMask = w.gpuExpertsMask := by
  rcases o with _ | _ | _ <;> rfl

@[simp] theorem stageExpert_mask : (w.stageExpert e o).gpuExpertsMask = w.gpuExpertsMask := by
  rcases o with _ | _ | _ <;> rfl

/-- Eviction touches no other expert's bytes. -/
theorem mem_evictExpert_of_ne (h : i ≠ e) : i ∈ (w.evictExpert e o).staged ↔ i ∈ w.staged := by
  rcases o with _ | _ | _ <;> simp [evictExpert, h]

/-- Staging touches no other expert's bytes. -/
theorem mem_stageExpert_of_ne (h : i ≠ e) : i ∈ (w.stageExpert e o).staged ↔ i ∈ w.staged := by
  rcases o with _ | _ | _ <;> simp [stageExpert, h]

/-- After a call that returns the bytes are there. -/
theorem mem_stageExpert_ok : e ∈ (w.stageExpert e .ok).staged := by simp [stageExpert]

end Wrapper

/-! ## The store of a layer -/

namespace Method

variable {α : Type*} [Field α] {env : Env α} {m : Method E} {ram : Finset (Fin E)} {e : Fin E} {o : Outcome}

/-- Write the RAM mask and its device mirror. -/
def setRam (m : Method E) (ram : Finset (Fin E)) : Method E :=
  { m with ramExpertsMask := ram, ramExpertsMaskCuda := ram }

/-- Evict from the rank's own store, where there is one. -/
def evictExpert (m : Method E) (e : Fin E) (o : Outcome) : Method E :=
  { m with wrapper := m.wrapper.map fun w => w.evictExpert e o }

/-- Stage into the rank's own store, where there is one. -/
def stageExpert (m : Method E) (e : Fin E) (o : Outcome) : Method E :=
  { m with wrapper := m.wrapper.map fun w => w.stageExpert e o }

theorem sameTables_setRam (m : Method E) (ram : Finset (Fin E)) : m.SameTables (m.setRam ram) :=
  ⟨rfl, rfl, rfl, rfl, rfl, rfl, rfl⟩

theorem sameTables_refreshWrapper (env : Env α) : m.SameTables (m.refreshWrapper env) :=
  ⟨rfl, rfl, rfl, rfl, rfl, rfl, rfl⟩

theorem sameTables_evictExpert (e : Fin E) (o : Outcome) : m.SameTables (m.evictExpert e o) :=
  ⟨rfl, rfl, rfl, rfl, rfl, rfl, rfl⟩

theorem sameTables_stageExpert (e : Fin E) (o : Outcome) : m.SameTables (m.stageExpert e o) :=
  ⟨rfl, rfl, rfl, rfl, rfl, rfl, rfl⟩

@[simp] theorem evictExpert_isSome : (m.evictExpert e o).wrapper.isSome = m.wrapper.isSome := Option.isSome_map

@[simp] theorem stageExpert_isSome : (m.stageExpert e o).wrapper.isSome = m.wrapper.isSome := Option.isSome_map

@[simp] theorem refreshWrapper_isSome : (m.refreshWrapper env).wrapper.isSome = m.wrapper.isSome := by
  unfold refreshWrapper updateKtWrapperMasks
  dsimp only
  split
  · exact Option.isSome_map
  · rfl

/-- Eviction touches no other expert's bytes in the rank's store. -/
theorem mem_store_evictExpert_of_ne {i : Fin E} (h : i ≠ e) : i ∈ (m.evictExpert e o).store ↔ i ∈ m.store := by
  unfold store evictExpert
  cases m.wrapper with
  | none => exact Iff.rfl
  | some w => exact Wrapper.mem_evictExpert_of_ne h

/-- Staging touches no other expert's bytes in the rank's store. -/
theorem mem_store_stageExpert_of_ne {i : Fin E} (h : i ≠ e) : i ∈ (m.stageExpert e o).store ↔ i ∈ m.store := by
  unfold store stageExpert
  cases m.wrapper with
  | none => exact Iff.rfl
  | some w => exact Wrapper.mem_stageExpert_of_ne h

/-- After a staging that returns, the store of a rank that has one holds the expert. -/
theorem mem_store_stageExpert_ok (h : m.wrapper.isSome) : e ∈ (m.stageExpert e .ok).store := by
  obtain ⟨w, hw⟩ := Option.isSome_iff_exists.mp h
  unfold store stageExpert
  rw [hw]
  exact Wrapper.mem_stageExpert_ok

theorem Wired.evictExpert (h : m.Wired env) : (m.evictExpert e o).Wired env where
  owner := by
    rw [evictExpert_isSome]
    exact h.owner
  mask w hw := by
    obtain ⟨w₀, hw₀, rfl⟩ := Option.map_eq_some_iff.mp hw
    rw [Wrapper.evictExpert_mask]
    exact h.mask w₀ hw₀

theorem Wired.stageExpert (h : m.Wired env) : (m.stageExpert e o).Wired env where
  owner := by
    rw [stageExpert_isSome]
    exact h.owner
  mask w hw := by
    obtain ⟨w₀, hw₀, rfl⟩ := Option.map_eq_some_iff.mp hw
    rw [Wrapper.stageExpert_mask]
    exact h.mask w₀ hw₀

end Method

end ExpertServe
