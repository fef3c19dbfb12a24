import ExpertServe.Lib.Copies
import Mathlib.Data.Nat.Find

/-!
# Writes scattered over a buffer

A grid of workers goes through numbered tasks, each worker from its own number onward in strides of the whole grid, and
each task writes one short run of cells at a place that is computed from its number.

* `gridStride`, `gridStride_perm`: the workers of a grid together take every task once;
* `lays_scatter`: tasks whose place can be read back from any of its cells lay the buffer;
* `slotRegion`, `lays_slots`: a buffer cut in slots of one size, of which some are listed;
* `slotRegion_ge`: beyond the last listed slot there is nothing to write.
-/

namespace ExpertServe.Lib

/-! ## Grids -/

/-- `for (i = start; i < total; i += stride)`. -/
def gridStride (start stride total : ℕ) : List ℕ := List.range' start ((total - start + stride - 1) / stride) stride

theorem mem_gridStride {start stride total i : ℕ} (h : start < stride) :
    i ∈ gridStride start stride total ↔ i < total ∧ i % stride = start := by
  have hpos : 0 < stride := by omega
  rw [gridStride, List.mem_range']
  constructor
  · rintro ⟨k, hk, rfl⟩
    have hround : (k + 1) * stride ≤ total - start + stride - 1 := (Nat.le_div_iff_mul_le hpos).mp hk
    rw [Nat.succ_mul, Nat.mul_comm k] at hround
    refine ⟨by omega, ?_⟩
    rw [Nat.add_mul_mod_self_left, Nat.mod_eq_of_lt h]
  · rintro ⟨hi, hmod⟩
    have hdiv := Nat.div_add_mod i stride
    rw [hmod] at hdiv
    refine ⟨i / stride, ?_, by omega⟩
    apply (Nat.le_div_iff_mul_le hpos).mpr
    rw [Nat.succ_mul, Nat.mul_comm (i / stride)]
    omega

/-- **The workers of a grid take every task once.** -/
theorem gridStride_perm {n : ℕ} (total : ℕ) (h : 0 < n) :
    ((List.range n).flatMap fun start => gridStride start n total).Perm (List.range total) := by
  have hmem : ∀ start ∈ List.range n, ∀ i, i ∈ gridStride start n total ↔ i < total ∧ i % n = start :=
    fun start hstart i => mem_gridStride (List.mem_range.mp hstart)
  have hnodup : ((List.range n).flatMap fun start => gridStride start n total).Nodup := by
    rw [List.nodup_flatMap]
    refine ⟨fun start _ => List.nodup_range' n h, ?_⟩
    refine List.nodup_range.pairwise_of_forall_ne fun start hstart start' hstart' hne i hi hi' => hne ?_
    exact ((hmem start hstart i).mp hi).2.symm.trans ((hmem start' hstart' i).mp hi').2
  refine (List.perm_ext_iff_of_nodup hnodup List.nodup_range).mpr fun i => ?_
  rw [List.mem_flatMap, List.mem_range]
  constructor
  · rintro ⟨start, hstart, hi⟩
    exact ((hmem start hstart i).mp hi).1
  · intro hi
    have hstart : i % n ∈ List.range n := List.mem_range.mpr (Nat.mod_lt i h)
    exact ⟨i % n, hstart, (hmem _ hstart i).mpr ⟨hi, rfl⟩⟩

/-- A grid of blocks of `threads` each. -/
theorem blockStride_perm {blocks threads : ℕ} (total : ℕ) (hblocks : 0 < blocks) (hthreads : 0 < threads) :
    ((List.range blocks).flatMap fun block => (List.range threads).flatMap fun thread =>
      gridStride (block * threads + thread) (blocks * threads) total).Perm (List.range total) := by
  rw [← flatMap_range_mul (fun block thread => gridStride (block * threads + thread) (blocks * threads) total)]
  have hworker : ∀ task, task / threads * threads + task % threads = task := fun task => Nat.div_add_mod' task threads
  simp only [hworker]
  rw [Nat.mul_comm threads]
  exact gridStride_perm total (Nat.mul_pos hblocks hthreads)

/-! ## Tasks that can be read back -/

section Scatter

variable {ι κ α : Type*} [DecidableEq κ]

/-- **Scattered writes.** Tasks of `len` cells each, where the task of a cell can be read back from the cell. -/
theorem lays_scatter {tasks : List ι} (hnodup : tasks.Nodup) (k : κ) (off size len : ℕ) (place : ι → ℕ)
    (val : ι → ℕ → α) (src : ℕ → α) (task : ℕ → ι)
    (hplace : ∀ i ∈ tasks, ∀ j < len, place i + j < size ∧ task (place i + j) = i ∧ src (place i + j) = val i j)
    (hcover : ∀ p < size, task p ∈ tasks ∧ place (task p) ≤ p ∧ p < place (task p) + len) :
    Lays (tasks.map fun i => (⟨k, off + place i, len, val i⟩ : Copy κ α)) (slab k off size src) := by
  rw [List.map_eq_flatMap]
  refine Lays.flatMap hnodup (fun i _ => lays_one k (off + place i) len (val i)) ?_ ?_
  · intro i hi k' p hsome
    obtain ⟨rfl, hlo, hhi⟩ := slab_isSome.mp hsome
    obtain ⟨hsize, -, hval⟩ := hplace i hi (p - (off + place i)) (by omega)
    rw [slab_of_mem ⟨hlo, hhi⟩, slab_of_mem ⟨by omega, by omega⟩, ← hval]
    congr 2
    omega
  · intro k' p hsome
    obtain ⟨rfl, hlo, hhi⟩ := slab_isSome.mp hsome
    obtain ⟨hmem, hfrom, hto⟩ := hcover (p - off) (by omega)
    refine ⟨task (p - off), hmem, slab_isSome.mpr ⟨rfl, by omega, by omega⟩, fun i hi hp => ?_⟩
    obtain ⟨-, hlo', hhi'⟩ := slab_isSome.mp hp
    obtain ⟨-, htask, -⟩ := hplace i hi (p - (off + place i)) (by omega)
    rw [← htask]
    congr 1
    omega

end Scatter

/-! ## Slots -/

section Slots

variable {κ α : Type*} [DecidableEq κ]

/-- Who goes into a slot; a negative entry goes nowhere. -/
def listed (sel : List ℤ) (slot : ℕ) : Option ℕ :=
  match sel[slot]? with
  | some e => if e < 0 then none else some e.toNat
  | none => none

theorem listed_lt {sel : List ℤ} {slot e : ℕ} (h : listed sel slot = some e) : slot < sel.length := by
  unfold listed at h
  split at h
  · next hget => exact (List.getElem?_eq_some_iff.mp hget).1
  · exact absurd h.symm (Option.some_ne_none e)

/-- Slots of `size` cells: a listed one holds what is given for it, the others are left alone. -/
def slotRegion (k : κ) (size : ℕ) (sel : List ℤ) (cell : ℕ → ℕ → Option α) : Region κ α := fun k' p =>
  if k' = k ∧ p < sel.length * size then (listed sel (p / size)).bind fun e => cell e (p % size) else none

theorem mem_of_listed {sel : List ℤ} {slot e : ℕ} (h : listed sel slot = some e) : (e : ℤ) ∈ sel := by
  unfold listed at h
  split at h
  · next x hget =>
    split at h
    · exact absurd h.symm (Option.some_ne_none e)
    · have he : (e : ℤ) = x := by
        rw [← Option.some.inj h]
        exact Int.toNat_of_nonneg (by omega)
      rw [he]
      exact List.mem_of_getElem? hget
  · exact absurd h.symm (Option.some_ne_none e)

/-- Among the listed slots there is a last one. -/
theorem exists_last_listed {sel : List ℤ} (h : ∃ slot, (listed sel slot).isSome) :
    ∃ slot e, listed sel slot = some e ∧ ∀ slot', (listed sel slot').isSome → slot' ≤ slot := by
  have hbound : ∀ slot, (listed sel slot).isSome → slot ≤ sel.length := fun slot hslot => by
    obtain ⟨e, he⟩ := Option.isSome_iff_exists.mp hslot
    exact (listed_lt he).le
  obtain ⟨slot, hslot⟩ := h
  obtain ⟨e, he⟩ := Option.isSome_iff_exists.mp
    (Nat.findGreatest_spec (P := fun slot => (listed sel slot).isSome = true) (hbound slot hslot) hslot)
  exact ⟨_, e, he, fun slot' hslot' => Nat.le_findGreatest (hbound slot' hslot') hslot'⟩

variable {k : κ} {size : ℕ} {sel : List ℤ} {cell : ℕ → ℕ → Option α} {slot e : ℕ}

/-- A cell of a listed slot. -/
theorem slotRegion_cell (h : listed sel slot = some e) {q : ℕ} (hq : q < size) :
    slotRegion k size sel cell k (slot * size + q) = cell e q := by
  obtain ⟨hdiv, hmod⟩ := piece_div_mod (t := slot) hq
  have hin : slot * size + q < sel.length * size := piece_lt (listed_lt h) hq
  unfold slotRegion
  rw [if_pos ⟨rfl, hin⟩, hdiv, hmod, h]
  rfl

theorem slotRegion_isSome {k' : κ} {p : ℕ} (h : (slotRegion k size sel cell k' p).isSome) :
    k' = k ∧ p / size < sel.length ∧ ∃ e, listed sel (p / size) = some e ∧ p = p / size * size + p % size ∧
      p % size < size := by
  unfold slotRegion at h
  split at h
  · next hp =>
    obtain ⟨rfl, hlt⟩ := hp
    have hsize : 0 < size := Nat.pos_of_ne_zero fun h0 => by simp [h0] at hlt
    cases he : listed sel (p / size) with
    | none => simp [he] at h
    | some e => exact ⟨rfl, listed_lt he, e, rfl, (Nat.div_add_mod' p size).symm, Nat.mod_lt p hsize⟩
  · exact absurd h Bool.false_ne_true

/-- Beyond the last listed slot there is nothing to write. -/
theorem slotRegion_ge (hlast : ∀ slot', (listed sel slot').isSome → slot' ≤ slot) {p : ℕ} (hp : (slot + 1) * size ≤ p) :
    slotRegion k size sel cell k p = none := by
  by_contra hne
  obtain ⟨-, -, e, he, hcell, hmod⟩ := slotRegion_isSome (Option.isSome_iff_ne_none.mpr hne)
  have hle : p / size * size ≤ slot * size := Nat.mul_le_mul_right size (hlast _ (by rw [he]; rfl))
  rw [Nat.succ_mul] at hp
  omega

/-- **Slots.** Jobs that lay each listed slot lay them all. -/
theorem lays_slots {job : ℕ → ℕ → List (Copy κ α)} (val : ℕ → ℕ → α)
    (hjob : ∀ slot e, listed sel slot = some e → Lays (job slot e) (slab k (slot * size) size (val e)))
    (hval : ∀ slot e, listed sel slot = some e → ∀ q < size, cell e q = some (val e q)) :
    Lays ((List.range sel.length).flatMap fun slot => ((listed sel slot).map (job slot)).getD [])
      (slotRegion k size sel cell) := by
  refine Lays.flatMap (R := fun slot => match listed sel slot with
    | some e => slab k (slot * size) size (val e)
    | none => fun _ _ => none) List.nodup_range ?_ ?_ ?_
  · intro slot _
    cases he : listed sel slot with
    | none => exact lays_nil
    | some e => exact hjob slot e he
  · intro slot _ k' p hsome
    cases he : listed sel slot with
    | none => simp [he] at hsome
    | some e =>
      simp only [he] at hsome ⊢
      obtain ⟨rfl, hlo, hhi⟩ := slab_isSome.mp hsome
      obtain ⟨q, rfl⟩ := Nat.exists_eq_add_of_le hlo
      rw [slotRegion_cell he (by omega), hval slot e he q (by omega), slab_of_mem ⟨hlo, hhi⟩, Nat.add_sub_cancel_left]
  · intro k' p hsome
    obtain ⟨rfl, hslot, e, he, hcell, hmod⟩ := slotRegion_isSome hsome
    refine ⟨p / size, List.mem_range.mpr hslot, ?_, fun slot _ hsome' => ?_⟩
    · simp only [he]
      exact slab_isSome.mpr ⟨rfl, by omega, by omega⟩
    · cases he' : listed sel slot with
      | none => simp [he'] at hsome'
      | some e' =>
        simp only [he'] at hsome'
        obtain ⟨-, hlo, hhi⟩ := slab_isSome.mp hsome'
        exact (Nat.div_eq_of_lt_le hlo (by rw [Nat.succ_mul]; omega)).symm

end Slots

end ExpertServe.Lib
