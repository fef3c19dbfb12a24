import ExpertServe.Lib.Run
import ExpertServe.Residency.Restage

/-!
# The slot tables over whole runs

A layer boots with its residents numbered by position and then goes through any sequence of changes of the
GPU set, all of the same size, each with its own switches and its own CPU store.

* `Method.TableOk`: the index is a bijection of the residents onto the slots, the reverse table is its
  inverse, and the device mirrors agree;
* `Method.boot_tabled`, `Method.boot_honest`: boot establishes tables and slots;
* `slotTables_run`: tables hold in every state, slots hold as long as the stores hold what is taken from
  them, and the weights each expert runs do not depend on the path.
-/

namespace ExpertServe

open Lib

variable {E : ℕ} {α : Type*} [Field α] [LinearOrder α]

/-- The host tables of a layer are a bijection and its inverse, and the device mirrors equal them. -/
structure Method.TableOk (m : Method E) : Prop where
  bijOn : Set.BijOn m.logicalToGpuIndex ↑m.gpuExpertsMask (Set.Ico (0 : ℤ) m.numGpuExperts)
  absent : ∀ e, e ∉ m.gpuExpertsMask → m.logicalToGpuIndex e = -1
  inverse : ∀ (s : ℕ) e, m.gpuIndexToLogical[s]? = some e ↔ e ∈ m.gpuExpertsMask ∧ m.logicalToGpuIndex e = s
  maskCuda : m.gpuExpertsMaskCuda = m.gpuExpertsMask
  indexCuda : m.logicalToGpuIndexCuda = m.logicalToGpuIndex

theorem Method.Tabled.tableOk {m : Method E} {t : Seating (Fin E)} (ht : m.Tabled t)
    (hlen : t.occupants.length = m.numGpuExperts) : m.TableOk where
  bijOn := by
    rw [ht.mask, ht.index, ← hlen]
    exact t.bijOn_index
  absent e he := by
    rw [ht.mask, Seating.mem_residents] at he
    rw [ht.index]
    exact Seating.index_of_notMem he
  inverse s e := by
    rw [ht.occupants, ht.mask, ht.index, Seating.mem_residents]
    refine ⟨fun h => ⟨List.mem_of_getElem? h, Seating.index_of_getElem? h⟩, fun ⟨he, hs⟩ => ?_⟩
    have hget := Seating.getElem?_index he
    rwa [hs, Int.toNat_natCast] at hget
  maskCuda := ht.maskCuda
  indexCuda := ht.indexCuda

/-! ## Boot -/

/-- The seating a layer boots with: the GPU experts in index order. -/
def bootSeating (gpuMask : Finset (Fin E)) : Seating (Fin E) := ⟨whereTrue gpuMask, whereTrue_nodup gpuMask⟩

section Boot

variable (env : Env α) (adaptive : Bool) (ranking : Option (List (Fin E))) (tpRank : ℕ) (gpuMask : Finset (Fin E))

omit [LinearOrder α] in
theorem Method.boot_tabled : (Method.boot env adaptive ranking tpRank gpuMask).Tabled (bootSeating gpuMask) where
  mask := (whereTrue_toFinset gpuMask).symm
  index := updateGpuExpertMappings_index (whereTrue_nodup gpuMask)
  occupants := rfl
  maskCuda := rfl
  indexCuda := rfl

omit [LinearOrder α] in
theorem ktBuildRamTierMask_disjoint : Disjoint gpuMask (ktBuildRamTierMask env ranking gpuMask) := by
  rw [Finset.disjoint_left]
  intro e hgpu hram
  unfold ktBuildRamTierMask at hram
  dsimp only at hram
  split at hram
  · exact absurd hram (Finset.notMem_empty e)
  · have hmem := List.mem_of_mem_take (List.mem_toFinset.mp hram)
    exact absurd hgpu (by simpa using (List.mem_filter.mp hmem).2)

omit [LinearOrder α] in
theorem Method.boot_disjoint : Disjoint (Method.boot env adaptive ranking tpRank gpuMask).gpuExpertsMask
    (Method.boot env adaptive ranking tpRank gpuMask).ramExpertsMask := by
  unfold Method.boot
  dsimp only
  split
  · exact ktBuildRamTierMask_disjoint env ranking gpuMask
  · exact disjoint_compl_right

omit [LinearOrder α] in
theorem Method.boot_wired : (Method.boot env adaptive ranking tpRank gpuMask).Wired env := by
  refine ⟨?_, fun w hw => ?_⟩
  · unfold Method.boot
    by_cases h0 : tpRank = 0 <;> simp [h0]
  · unfold Method.boot at hw
    dsimp only at hw
    split at hw
    · obtain rfl := Option.some.inj hw
      unfold Method.ktCpuSkipMask Method.boot
      by_cases htier : env.tierEnabled <;> simp [htier]
    · exact absurd hw.symm (Option.some_ne_none w)

omit [LinearOrder α] in
/-- At boot the store holds every expert of the RAM tier. -/
theorem Method.boot_staged : (Method.boot env adaptive ranking 0 gpuMask).ramExpertsMask ⊆
    (Method.boot env adaptive ranking 0 gpuMask).store := by
  have hstore : (Method.boot env adaptive ranking 0 gpuMask).store =
      loadStaged env adaptive gpuMask (Method.boot env adaptive ranking 0 gpuMask).ramExpertsMask := rfl
  rw [hstore, loadStaged]
  by_cases htier : env.tierEnabled
  · rw [if_pos htier]
  rw [if_neg htier]
  cases adaptive with
  | true => exact Finset.subset_univ _
  | false =>
    unfold Method.boot
    dsimp only
    rw [if_neg htier]
    exact subset_rfl

omit [LinearOrder α] in
theorem Method.boot_honest : (Method.boot env adaptive ranking tpRank gpuMask).Honest := fun _ _ h => h

end Boot

/-! ## Changes -/

/-- A change of a layer's GPU set to `n` distinct experts, with the switches and the CPU store it meets. -/
structure Change (E n : ℕ) where
  selected : List (Fin E)
  nodup : selected.Nodup
  size : selected.length = n
  incremental : Bool
  ctxBuilt : Bool
  store : Finset (Fin E)

/-- The set a change asks for. -/
def Change.target {n : ℕ} (c : Change E n) : Finset (Fin E) := c.selected.toFinset

/-- One change of the GPU set. -/
def Method.change {n : ℕ} (env : Env α) (q : Quant) (m : Method E) (c : Change E n) : Method E :=
  (changeGpuSet env q c.ctxBuilt c.store c.incremental c.selected m).2

/-- What a change needs of its store. -/
def Change.Sourced {n : ℕ} (q : Quant) (m : Method E) (c : Change E n) : Prop :=
  SourcesStaged q c.store c.selected m

/-- The bytes an expert runs on the GPU. -/
def Method.weightsOf (m : Method E) (e : Fin E) : Option (Fin E) :=
  if e ∈ m.gpuExpertsMask then m.slots (m.logicalToGpuIndex e).toNat else none

section Run

variable {n : ℕ} {m : Method E}

theorem Method.Seats.tableOk (h : m.Seats n) : m.TableOk := by
  obtain ⟨t, ht, hlen, hnum⟩ := h
  exact ht.tableOk (hlen.trans hnum.symm)

theorem Method.change_seats (env : Env α) (q : Quant) (hm : m.Seats n) (c : Change E n) :
    (m.change env q c).Seats n :=
  (changeGpuSet_spec env c.ctxBuilt c.incremental c.store q hm c.nodup c.size).2.1

/-- The GPU set a run ends with depends on the sets it asks for only. -/
theorem mask_run (env : Env α) (q : Quant) (hm : m.Seats n) (cs : List (Change E n)) :
    (cs.foldl (Method.change env q) m).Seats n ∧
    (cs.foldl (Method.change env q) m).gpuExpertsMask =
      (cs.map Change.target).foldl (fun g target => if q = .mxfp4 then g else target) m.gpuExpertsMask := by
  induction cs generalizing m with
  | nil => exact ⟨hm, rfl⟩
  | cons c cs ih =>
    obtain ⟨-, hseats, hmask, -⟩ :=
      changeGpuSet_spec env c.ctxBuilt c.incremental c.store q hm c.nodup c.size
    rw [List.foldl_cons, List.map_cons, List.foldl_cons]
    unfold Change.target
    rw [← hmask]
    exact ih hseats

/-- The slots of a tabled layer are honest when every resident runs its own weights. -/
theorem honest_iff_weights (hm : m.Seats n) :
    m.Honest ↔ ∀ e ∈ m.gpuExpertsMask, 0 ≤ m.logicalToGpuIndex e ∧ m.residentRow e = some e := by
  obtain ⟨t, ht, -⟩ := hm
  constructor
  · intro hhon e he
    refine ⟨?_, residentRow_eq ht hhon he⟩
    rw [ht.mask, Seating.mem_residents] at he
    rw [ht.index]
    exact Seating.index_nonneg_iff.mpr he
  · intro hrow s e hs
    rw [ht.occupants] at hs
    have he : e ∈ m.gpuExpertsMask := by
      rw [ht.mask, Seating.mem_residents]
      exact List.mem_of_getElem? hs
    have hown := (hrow e he).2
    rwa [Method.residentRow, ht.index, Seating.index_of_getElem? hs, Int.toNat_natCast] at hown

theorem Method.Seats.card_mask (hm : m.Seats n) : m.gpuExpertsMask.card = n := by
  obtain ⟨t, ht, hlen, -⟩ := hm
  rw [ht.mask, t.card_residents, hlen]

theorem weightsOf_eq (hm : m.Seats n) (hhon : m.Honest) (e : Fin E) :
    m.weightsOf e = if e ∈ m.gpuExpertsMask then some e else none := by
  obtain ⟨t, ht, -⟩ := hm
  unfold Method.weightsOf
  by_cases he : e ∈ m.gpuExpertsMask
  · rw [if_pos he, if_pos he]
    exact residentRow_eq ht hhon he
  · rw [if_neg he, if_neg he]

end Run

section Boot

variable (env : Env α) (adaptive : Bool) (ranking : Option (List (Fin E))) (tpRank : ℕ) (gpuMask : Finset (Fin E))

omit [LinearOrder α] in
theorem Method.boot_seats : (Method.boot env adaptive ranking tpRank gpuMask).Seats gpuMask.card :=
  ⟨bootSeating gpuMask, Method.boot_tabled env adaptive ranking tpRank gpuMask, length_whereTrue gpuMask, rfl⟩

/-- Slots are honest along a run from boot exactly when every store holds what is taken from it. -/
theorem honest_run_iff (q : Quant) (cs : List (Change E gpuMask.card)) :
    StatesHold (Method.change env q) (fun m => m.TableOk ∧ m.Honest)
        (Method.boot env adaptive ranking tpRank gpuMask) cs ↔
      StepsMeet (Method.change env q) (Change.Sourced q) (Method.boot env adaptive ranking tpRank gpuMask) cs := by
  refine statesHold_iff_stepsMeet (I := Method.Seats gpuMask.card) (fun m c hI _ _ => (Method.change_seats env q hI c))
    (fun m c hI hP => ?_) (Method.boot_seats env adaptive ranking tpRank gpuMask)
    ⟨(Method.boot_seats env adaptive ranking tpRank gpuMask).tableOk,
      Method.boot_honest env adaptive ranking tpRank gpuMask⟩ cs
  obtain ⟨-, hseats, -, -, -, hiff⟩ :=
    changeGpuSet_spec env c.ctxBuilt c.incremental c.store q hI c.nodup c.size
  exact ⟨fun h => (hiff hP.2).mp h.2, fun h => ⟨hseats.tableOk, (hiff hP.2).mpr h⟩⟩

end Boot

/-- **The slot tables over any run.** From boot and through any changes of the GPU set, in place or by full
restage: the tables are a bijection with its inverse and equal mirrors in every state; each slot also holds
the weights of its expert in every state exactly when every change finds in its store the experts taken from
it; and two such runs that ask for the same sets, under any switches, end with the same weights for every
expert. -/
theorem slotTables_run (env : Env α) (adaptive : Bool) (ranking : Option (List (Fin E))) (tpRank : ℕ)
    (gpuMask : Finset (Fin E)) (q : Quant) (cs : List (Change E gpuMask.card)) :
    StatesHold (Method.change env q) Method.TableOk (Method.boot env adaptive ranking tpRank gpuMask) cs ∧
    (StatesHold (Method.change env q) (fun m => m.TableOk ∧ m.Honest)
        (Method.boot env adaptive ranking tpRank gpuMask) cs ↔
      StepsMeet (Method.change env q) (Change.Sourced q) (Method.boot env adaptive ranking tpRank gpuMask) cs) ∧
    ∀ (env' : Env α) (cs' : List (Change E gpuMask.card)), cs.map Change.target = cs'.map Change.target →
      StepsMeet (Method.change env q) (Change.Sourced q) (Method.boot env adaptive ranking tpRank gpuMask) cs →
      StepsMeet (Method.change env' q) (Change.Sourced q) (Method.boot env' adaptive ranking tpRank gpuMask) cs' →
      ∀ e, (cs.foldl (Method.change env q) (Method.boot env adaptive ranking tpRank gpuMask)).weightsOf e =
        (cs'.foldl (Method.change env' q) (Method.boot env' adaptive ranking tpRank gpuMask)).weightsOf e := by
  refine ⟨?_, honest_run_iff env adaptive ranking tpRank gpuMask q cs, fun env' cs' htargets hcs hcs' e => ?_⟩
  · have hseats : StatesHold (Method.change env q) (Method.Seats gpuMask.card)
        (Method.boot env adaptive ranking tpRank gpuMask) cs :=
      StatesHold.of_invariant (I := Method.Seats gpuMask.card)
        (fun m c hm => Method.change_seats env q hm c)
        (Method.boot_seats env adaptive ranking tpRank gpuMask) cs
    exact hseats.mono fun m hm => hm.tableOk
  · have hhon := ((honest_run_iff env adaptive ranking tpRank gpuMask q cs).mpr hcs).last.2
    have hhon' := ((honest_run_iff env' adaptive ranking tpRank gpuMask q cs').mpr hcs').last.2
    obtain ⟨hseats, hmask⟩ := mask_run env q (Method.boot_seats env adaptive ranking tpRank gpuMask) cs
    obtain ⟨hseats', hmask'⟩ :=
      mask_run env' q (Method.boot_seats env' adaptive ranking tpRank gpuMask) cs'
    rw [weightsOf_eq hseats hhon, weightsOf_eq hseats' hhon', hmask, hmask', htargets]
    rfl

/-- A RAM tier of one expert. -/
def oneInRam : Env ℚ := { Env.unset with ktRamExperts := 1 }

/-- Two experts out of four on the GPU and one in host RAM: the GPU set changes from 0, 1 to 0, 2. -/
def promoteTwo (incremental : Bool) : Change 4 2 where
  selected := (List.finRange 4).filter fun e => e.val = 0 ∨ e.val = 2
  nodup := by decide
  size := by decide
  incremental := incremental
  ctxBuilt := true
  store := Finset.univ.filter fun e => e.val = 2

/-- The change in place and the change by full restage give the arriving expert the same weights. -/
theorem slotTables_run_promoteTwo :
    ((Method.boot oneInRam true none 0 {0, 1}).change oneInRam .w4afp8
        (promoteTwo true)).weightsOf 2 =
      ((Method.boot oneInRam true none 0 {0, 1}).change oneInRam .w4afp8
        (promoteTwo false)).weightsOf 2 := by
  have h := (slotTables_run oneInRam true none 0 {0, 1} .w4afp8 [promoteTwo true]).2.2
    oneInRam [promoteTwo false] rfl ⟨Or.inr (by decide), trivial⟩ ⟨Or.inr (by decide), trivial⟩
  exact h 2

/-- Under INT4 Marlin the restage streams the resident expert 0 out of a CPU store that does not hold it. -/
theorem int4_restage_loses_resident :
    ¬ ((Method.boot oneInRam true none 0 {0, 1}).change oneInRam .int4
        (promoteTwo true)).Honest := by
  intro h
  have hslot := h 0 0 (by decide)
  revert hslot
  decide

end ExpertServe
