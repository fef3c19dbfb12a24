import Mathlib.Data.List.Count
import Mathlib.Data.List.Flatten
import Mathlib.Data.List.Nodup
import Mathlib.Data.List.Range
import Mathlib.Algebra.Order.Group.Nat
import Mathlib.Tactic.Ring

/-!
# Copies into buffers

A job is a list of copies, each of some cells to an offset of a buffer; workers do them in any order. A region says, for
every cell of every buffer, what a job is meant to put there, if anything.

* `Lays cs R`: each cell of the region is written by exactly one copy of the job, with the value the region gives, and
  no copy writes outside;
* `Runs.eq_of_agree`, `Runs.eq_of_lays`, `Runs.eq_of_not_hits`: what a job leaves behind, in whatever order it is done;
* `Lays.append`, `Lays.flatMap`: jobs whose regions are disjoint;
* `lays_chunks`, `lays_rows`: a run of cells cut in chunks, and one copy for each row;
* `flatMap_range_mul`, `flatMap_range_chunks`: loops over numbered tasks;
* `lays_pieces`, `lays_stripPieces`: the pieces of a matrix dealt out to ranks, `a` to a rank, by rows or by columns.
-/

namespace ExpertServe.Lib

/-- A copy of `len` cells to offset `off` of buffer `dst`: `val j` is the `j`-th of them. -/
structure Copy (κ α : Type*) where
  dst : κ
  off : ℕ
  len : ℕ
  val : ℕ → α

/-- What should be in each cell of each buffer, `none` for cells to be left alone. -/
abbrev Region (κ α : Type*) := κ → ℕ → Option α

section Copies

variable {κ α ι : Type*}

/-- The copy writes cell `p` of buffer `k`. -/
def Copy.Hits (c : Copy κ α) (k : κ) (p : ℕ) : Prop := c.dst = k ∧ c.off ≤ p ∧ p < c.off + c.len

instance [DecidableEq κ] (c : Copy κ α) (k : κ) (p : ℕ) : Decidable (c.Hits k p) :=
  inferInstanceAs (Decidable (_ ∧ _ ∧ _))

variable [DecidableEq κ]

def Copy.apply (mem : κ → ℕ → α) (c : Copy κ α) : κ → ℕ → α :=
  fun k p => if c.Hits k p then c.val (p - c.off) else mem k p

/-- `mem'` is what the copies leave of `mem` when they are done in some order. -/
def Runs (cs : List (Copy κ α)) (mem mem' : κ → ℕ → α) : Prop :=
  ∃ order : List (Copy κ α), order.Perm cs ∧ mem' = order.foldl Copy.apply mem

/-- Every cell of the region is written exactly once, with its value, and no other cell is written. -/
structure Lays (cs : List (Copy κ α)) (R : Region κ α) : Prop where
  once : ∀ k p, (R k p).isSome → cs.countP (fun c => c.Hits k p) = 1
  value : ∀ c ∈ cs, ∀ k p, c.Hits k p → R k p = some (c.val (p - c.off))

/-! ## What a job leaves behind -/

theorem foldl_apply_of_not_hits : ∀ (cs : List (Copy κ α)) (mem : κ → ℕ → α) {k : κ} {p : ℕ},
    (∀ c ∈ cs, ¬ c.Hits k p) → cs.foldl Copy.apply mem k p = mem k p
  | [], _, _, _, _ => rfl
  | c :: cs, mem, k, p, h => by
    have htail := foldl_apply_of_not_hits cs (c.apply mem) fun c' hc' => h c' (List.mem_cons_of_mem c hc')
    exact htail.trans (if_neg (h c List.mem_cons_self))

/-- Where all copies that write a cell agree, the last of them decides nothing. -/
theorem foldl_apply_of_agree : ∀ (cs : List (Copy κ α)) (mem : κ → ℕ → α) {k : κ} {p : ℕ} {v : α},
    (∀ c ∈ cs, c.Hits k p → c.val (p - c.off) = v) → (∃ c ∈ cs, c.Hits k p) ∨ mem k p = v →
    cs.foldl Copy.apply mem k p = v
  | [], _, _, _, _, _, h => h.resolve_left fun ⟨_, hc, _⟩ => absurd hc List.not_mem_nil
  | c :: cs, mem, k, p, v, hagree, h => by
    refine foldl_apply_of_agree cs (c.apply mem) (fun c' hc' => hagree c' (List.mem_cons_of_mem c hc')) ?_
    by_cases hc : c.Hits k p
    · exact .inr ((if_pos hc).trans (hagree c List.mem_cons_self hc))
    · rcases h with ⟨c', hc', hhit⟩ | h
      · rcases List.mem_cons.mp hc' with rfl | hc'
        · exact absurd hhit hc
        · exact .inl ⟨c', hc', hhit⟩
      · exact .inr ((if_neg hc).trans h)

/-- A job can be done. -/
theorem exists_runs (cs : List (Copy κ α)) (mem : κ → ℕ → α) : ∃ mem', Runs cs mem mem' := ⟨_, cs, .refl cs, rfl⟩

/-- **Any order, agreeing copies.** -/
theorem Runs.eq_of_agree {cs : List (Copy κ α)} {mem mem' : κ → ℕ → α} (h : Runs cs mem mem') {k : κ} {p : ℕ} {v : α}
    (hhit : ∃ c ∈ cs, c.Hits k p) (hagree : ∀ c ∈ cs, c.Hits k p → c.val (p - c.off) = v) : mem' k p = v := by
  obtain ⟨order, hperm, rfl⟩ := h
  obtain ⟨c, hc, hcp⟩ := hhit
  exact foldl_apply_of_agree order mem (fun c' hc' => hagree c' (hperm.mem_iff.mp hc'))
    (.inl ⟨c, hperm.mem_iff.mpr hc, hcp⟩)

/-- A cell that no copy writes stays as it was. -/
theorem Runs.eq_of_not_hits {cs : List (Copy κ α)} {mem mem' : κ → ℕ → α} (h : Runs cs mem mem') {k : κ} {p : ℕ}
    (hnot : ∀ c ∈ cs, ¬ c.Hits k p) : mem' k p = mem k p := by
  obtain ⟨order, hperm, rfl⟩ := h
  exact foldl_apply_of_not_hits order mem fun c hc => hnot c (hperm.mem_iff.mp hc)

theorem Lays.exists_hit {cs : List (Copy κ α)} {R : Region κ α} (h : Lays cs R) {k : κ} {p : ℕ} (hR : (R k p).isSome) :
    ∃ c ∈ cs, c.Hits k p := by
  have hpos : 0 < cs.countP (fun c => c.Hits k p) := by rw [h.once k p hR]; exact Nat.one_pos
  obtain ⟨c, hc, hhit⟩ := List.countP_pos_iff.mp hpos
  exact ⟨c, hc, of_decide_eq_true hhit⟩

theorem Lays.not_hits {cs : List (Copy κ α)} {R : Region κ α} (h : Lays cs R) {k : κ} {p : ℕ} (hR : R k p = none) :
    ∀ c ∈ cs, ¬ c.Hits k p :=
  fun c hc hhit => Option.some_ne_none _ ((h.value c hc k p hhit).symm.trans hR)

/-- How many copies write a cell: one in the region, none outside it. -/
theorem Lays.countP_eq {cs : List (Copy κ α)} {R : Region κ α} (h : Lays cs R) (k : κ) (p : ℕ) :
    cs.countP (fun c => c.Hits k p) = if (R k p).isSome then 1 else 0 := by
  split
  · next hR => exact h.once k p hR
  · next hR => exact List.countP_eq_zero.mpr fun c hc => by simpa using h.not_hits (by simpa using hR) c hc

/-- **Any order, a job that lays a region.** -/
theorem Runs.eq_of_lays {cs : List (Copy κ α)} {mem mem' : κ → ℕ → α} (hrun : Runs cs mem mem') {R : Region κ α}
    (h : Lays cs R) (k : κ) (p : ℕ) : mem' k p = (R k p).getD (mem k p) := by
  rcases hR : R k p with _ | v
  · exact hrun.eq_of_not_hits (h.not_hits hR)
  · refine hrun.eq_of_agree (h.exists_hit (by rw [hR]; rfl)) fun c hc hhit => ?_
    exact Option.some_injective _ ((h.value c hc k p hhit).symm.trans hR)

/-! ## Putting jobs together -/

theorem Lays.perm {cs cs' : List (Copy κ α)} {R : Region κ α} (h : Lays cs R) (hperm : cs.Perm cs') : Lays cs' R where
  once k p hR := (hperm.countP_eq _).symm.trans (h.once k p hR)
  value c hc := h.value c (hperm.mem_iff.mpr hc)

theorem Lays.congr {cs : List (Copy κ α)} {R R' : Region κ α} (h : Lays cs R) (hR : ∀ k p, R k p = R' k p) :
    Lays cs R' := by
  obtain rfl : R = R' := funext fun k => funext (hR k)
  exact h

theorem lays_nil : Lays ([] : List (Copy κ α)) fun _ _ => none :=
  ⟨fun _ _ h => absurd h Bool.false_ne_true, fun _ hc => absurd hc List.not_mem_nil⟩

/-- Two jobs, where no cell is in both regions. -/
theorem Lays.append {cs cs' : List (Copy κ α)} {R R' S : Region κ α} (h : Lays cs R) (h' : Lays cs' R')
    (hS : ∀ k p, (S k p = R k p ∧ R' k p = none) ∨ (S k p = R' k p ∧ R k p = none)) : Lays (cs ++ cs') S where
  once k p hsome := by
    rw [List.countP_append, h.countP_eq, h'.countP_eq]
    rcases hS k p with ⟨hSR, hnone⟩ | ⟨hSR, hnone⟩ <;> rw [hSR] at hsome <;> simp [hsome, hnone]
  value c hc k p hhit := by
    rcases List.mem_append.mp hc with hc | hc
    · rcases hS k p with ⟨hSR, -⟩ | ⟨-, hnone⟩
      · exact hSR.trans (h.value c hc k p hhit)
      · exact absurd hhit (h.not_hits hnone c hc)
    · rcases hS k p with ⟨-, hnone⟩ | ⟨hSR, -⟩
      · exact absurd hhit (h'.not_hits hnone c hc)
      · exact hSR.trans (h'.value c hc k p hhit)

/-- **Disjoint jobs.** A family of jobs in which each cell of `S` is in the region of one member only. -/
theorem Lays.flatMap {is : List ι} (hnodup : is.Nodup) {f : ι → List (Copy κ α)} {R : ι → Region κ α} {S : Region κ α}
    (h : ∀ i ∈ is, Lays (f i) (R i)) (hS : ∀ i ∈ is, ∀ k p, (R i k p).isSome → S k p = R i k p)
    (hcover : ∀ k p, (S k p).isSome → ∃ i ∈ is, (R i k p).isSome ∧ ∀ j ∈ is, (R j k p).isSome → j = i) :
    Lays (is.flatMap f) S where
  once k p hsome := by
    obtain ⟨i, hi, hRi, hother⟩ := hcover k p hsome
    obtain ⟨before, after, rfl⟩ := List.append_of_mem hi
    -- the members on either side write nothing here
    have hzero : ∀ js : List ι, (∀ j ∈ js, j ∈ before ++ i :: after ∧ j ≠ i) →
        (js.flatMap f).countP (fun c => c.Hits k p) = 0 := by
      intro js hjs
      refine List.countP_eq_zero.mpr fun c hc => ?_
      obtain ⟨j, hj, hc⟩ := List.mem_flatMap.mp hc
      obtain ⟨hmem, hne⟩ := hjs j hj
      have hnone : R j k p = none := by
        by_contra hsome
        exact hne (hother j hmem (Option.isSome_iff_ne_none.mpr hsome))
      simpa using (h j hmem).not_hits hnone c hc
    have hnot := List.nodup_append.mp hnodup
    rw [List.flatMap_append, List.flatMap_cons, List.countP_append, List.countP_append, (h i hi).once k p hRi,
      hzero before fun j hj => ⟨List.mem_append_left _ hj, hnot.2.2 j hj i List.mem_cons_self⟩,
      hzero after fun j hj => ⟨List.mem_append_right _ (List.mem_cons_of_mem i hj), fun hji =>
        (List.nodup_cons.mp hnot.2.1).1 (hji ▸ hj)⟩]
  value c hc k p hhit := by
    obtain ⟨i, hi, hc⟩ := List.mem_flatMap.mp hc
    have hRi := (h i hi).value c hc k p hhit
    rw [hS i hi k p (by rw [hRi]; rfl), hRi]

/-! ## Chunks and rows -/

/-- `len` cells from offset `off` of buffer `k`. -/
def slab (k : κ) (off len : ℕ) (val : ℕ → α) : Region κ α :=
  fun k' p => if k' = k ∧ off ≤ p ∧ p < off + len then some (val (p - off)) else none

theorem slab_isSome {k k' : κ} {off len p : ℕ} {val : ℕ → α} :
    (slab k off len val k' p).isSome ↔ k' = k ∧ off ≤ p ∧ p < off + len := by
  unfold slab
  split <;> simp_all

theorem slab_of_mem {k : κ} {off len p : ℕ} {val : ℕ → α} (h : off ≤ p ∧ p < off + len) :
    slab k off len val k p = some (val (p - off)) := if_pos ⟨rfl, h⟩

/-- The slab depends only on the cells it covers. -/
theorem slab_congr {k : κ} {off len : ℕ} {val val' : ℕ → α} (h : ∀ j < len, val j = val' j) (k' : κ) (p : ℕ) :
    slab k off len val k' p = slab k off len val' k' p := by
  unfold slab
  split
  · next hp => rw [h (p - off) (by omega)]
  · rfl

theorem lays_one (k : κ) (off len : ℕ) (val : ℕ → α) : Lays [⟨k, off, len, val⟩] (slab k off len val) where
  once k' p hsome := by
    obtain ⟨rfl, hp⟩ := slab_isSome.mp hsome
    exact List.countP_eq_length.mpr fun c hc => by
      obtain rfl := List.mem_singleton.mp hc
      exact decide_eq_true ⟨rfl, hp⟩
  value c hc k' p hhit := by
    obtain rfl := List.mem_singleton.mp hc
    obtain ⟨rfl, hp⟩ := hhit
    exact slab_of_mem hp

/-- Chunk `t` of a run of `total` cells cut every `size` cells. -/
def chunk (dst : κ) (off total size : ℕ) (src : ℕ → α) (t : ℕ) : List (Copy κ α) :=
  let start := t * size
  let stop := min (start + size) total
  if start < stop then [⟨dst, off + start, stop - start, fun j => src (start + j)⟩] else []

theorem lays_chunk (dst : κ) (off total size : ℕ) (src : ℕ → α) (t : ℕ) : Lays (chunk dst off total size src t)
    (slab dst (off + t * size) (min (t * size + size) total - t * size) fun j => src (t * size + j)) := by
  rw [chunk]
  split
  · exact lays_one ..
  · refine lays_nil.congr fun k p => (if_neg ?_).symm
    omega

/-- **Chunks.** Enough chunks lay the whole run. -/
theorem lays_chunks (dst : κ) (off : ℕ) {total size n : ℕ} (src : ℕ → α) (h : total ≤ n * size) :
    Lays ((List.range n).flatMap (chunk dst off total size src)) (slab dst off total src) := by
  refine Lays.flatMap List.nodup_range (fun t _ => lays_chunk dst off total size src t) ?_ ?_
  · intro t _ k p hsome
    obtain ⟨rfl, hlo, hhi⟩ := slab_isSome.mp hsome
    rw [slab_of_mem ⟨hlo, hhi⟩, slab_of_mem ⟨by omega, by omega⟩]
    congr 2
    omega
  · intro k p hsome
    obtain ⟨rfl, hlo, hhi⟩ := slab_isSome.mp hsome
    have hsize : 0 < size := by
      by_contra h0
      rw [Nat.eq_zero_of_not_pos h0, Nat.mul_zero] at h
      omega
    have hdiv := Nat.div_add_mod' (p - off) size
    have hmod := Nat.mod_lt (p - off) hsize
    refine ⟨(p - off) / size, List.mem_range.mpr (Nat.div_lt_of_lt_mul (by rw [Nat.mul_comm]; omega)), ?_, ?_⟩
    · exact slab_isSome.mpr ⟨rfl, by omega, by omega⟩
    · intro t _ ht
      obtain ⟨-, hlo', hhi'⟩ := slab_isSome.mp ht
      exact (Nat.div_eq_of_lt_le (by omega) (by rw [Nat.succ_mul]; omega)).symm

/-- `width` cells from column `o` of each of the rows of a buffer. -/
def strips (k : κ) (rows stride o width : ℕ) (val : ℕ → ℕ → α) : Region κ α :=
  fun k' p =>
    if k' = k ∧ p / stride < rows ∧ o ≤ p % stride ∧ p % stride < o + width then
      some (val (p / stride) (p % stride - o))
    else none

theorem strips_isSome {k k' : κ} {rows stride o width p : ℕ} {val : ℕ → ℕ → α} :
    (strips k rows stride o width val k' p).isSome ↔
      k' = k ∧ p / stride < rows ∧ o ≤ p % stride ∧ p % stride < o + width := by
  unfold strips
  split <;> simp_all

theorem strips_of_mem {k : κ} {rows stride o width p : ℕ} {val : ℕ → ℕ → α}
    (h : p / stride < rows ∧ o ≤ p % stride ∧ p % stride < o + width) :
    strips k rows stride o width val k p = some (val (p / stride) (p % stride - o)) := if_pos ⟨rfl, h⟩

theorem strips_congr {k : κ} {rows stride o width : ℕ} {val val' : ℕ → ℕ → α}
    (h : ∀ row < rows, ∀ j < width, val row j = val' row j) (k' : κ) (p : ℕ) :
    strips k rows stride o width val k' p = strips k rows stride o width val' k' p := by
  unfold strips
  split
  · next hp => rw [h _ hp.2.1 _ (by omega)]
  · rfl

/-- **Rows.** One copy for each row lays a strip of the buffer. -/
theorem lays_rows (dst : κ) (rows : ℕ) {stride o width : ℕ} (val : ℕ → ℕ → α) (h : o + width ≤ stride) :
    Lays ((List.range rows).map fun row => (⟨dst, row * stride + o, width, val row⟩ : Copy κ α))
      (strips dst rows stride o width val) := by
  rw [List.map_eq_flatMap]
  refine Lays.flatMap List.nodup_range (fun row _ => lays_one dst (row * stride + o) width (val row)) ?_ ?_
  · intro row hrow k p hsome
    obtain ⟨rfl, hlo, hhi⟩ := slab_isSome.mp hsome
    have hdiv : p / stride = row := Nat.div_eq_of_lt_le (by omega) (by rw [Nat.succ_mul]; omega)
    have hmod := Nat.div_add_mod' p stride
    rw [hdiv] at hmod
    rw [slab_of_mem ⟨hlo, hhi⟩, strips_of_mem ⟨hdiv ▸ List.mem_range.mp hrow, by omega, by omega⟩, hdiv]
    congr 2
    omega
  · intro k p hsome
    obtain ⟨rfl, hrow, hlo, hhi⟩ := strips_isSome.mp hsome
    have hmod := Nat.div_add_mod' p stride
    refine ⟨p / stride, List.mem_range.mpr hrow, slab_isSome.mpr ⟨rfl, by omega, by omega⟩, fun row _ h' => ?_⟩
    obtain ⟨-, hlo', hhi'⟩ := slab_isSome.mp h'
    exact (Nat.div_eq_of_lt_le (by omega) (by rw [Nat.succ_mul]; omega)).symm

end Copies

/-! ## Loops cut in chunks -/

section Loops

variable {β : Type*}

/-- Piece `s` of `r * a`, dealt out `a` to a rank, is the `s % a`-th of rank `s / a`. -/
theorem piece_eq {r a s : ℕ} (hs : s < r * a) : 0 < a ∧ s / a < r ∧ s % a < a ∧ s = s / a * a + s % a := by
  have ha : 0 < a := Nat.pos_of_ne_zero fun h => by simp [h] at hs
  exact ⟨ha, Nat.div_lt_of_lt_mul (by rwa [Nat.mul_comm]), Nat.mod_lt s ha, (Nat.div_add_mod' s a).symm⟩

theorem piece_unique {a t l s : ℕ} (hdiv : s / a = t) (hmod : s % a = l) : s = t * a + l := by
  rw [← hdiv, ← hmod, Nat.div_add_mod']

theorem piece_div_mod {a t l : ℕ} (hl : l < a) : (t * a + l) / a = t ∧ (t * a + l) % a = l := by
  have ha : 0 < a := by omega
  rw [Nat.mul_comm, Nat.mul_add_div ha, Nat.mul_add_mod, Nat.div_eq_of_lt hl, Nat.mod_eq_of_lt hl]
  exact ⟨rfl, rfl⟩

theorem piece_lt {a t l n : ℕ} (ht : t < n) (hl : l < a) : t * a + l < n * a := by
  rw [Nat.mul_comm t]
  exact Nat.mul_add_lt_mul_of_lt_of_lt ht hl

/-- A loop over tasks numbered `n` to a group, group by group. -/
theorem flatMap_range_mul (f : ℕ → ℕ → List β) (n m : ℕ) :
    (List.range (n * m)).flatMap (fun task => f (task / n) (task % n)) =
      (List.range m).flatMap fun group => (List.range n).flatMap (f group) := by
  induction m with
  | zero => rfl
  | succ m ih =>
    rw [Nat.mul_succ, List.range_add, List.flatMap_append, ih, List.range_succ, List.flatMap_append,
      List.flatMap_singleton, List.flatMap_map]
    congr 1
    refine List.flatMap_congr fun i hi => ?_
    have hi : i < n := List.mem_range.mp hi
    rw [Nat.mul_comm n m, (piece_div_mod hi).1, (piece_div_mod hi).2]

/-- A loop cut in enough chunks is the whole loop. -/
theorem flatMap_range_chunks {total size n : ℕ} (h : total ≤ n * size) :
    (List.range n).flatMap (fun t => List.range' (t * size) (min (t * size + size) total - t * size)) =
      List.range total := by
  have hhead : ∀ n, (List.range n).flatMap (fun t => List.range' (t * size) (min (t * size + size) total - t * size)) =
      List.range (min (n * size) total) := by
    intro n
    induction n with
    | zero => simp
    | succ n ih =>
      rw [List.range_succ, List.flatMap_append, ih, List.flatMap_singleton, List.range_eq_range', List.range_eq_range',
        Nat.succ_mul]
      rcases Nat.le_total total (n * size) with hle | hle
      · rw [show min (n * size + size) total - n * size = 0 by omega, List.range'_zero, List.append_nil]
        congr 1
        omega
      · rw [show min (n * size) total = n * size by omega]
        have happ : List.range' 0 (n * size) ++ List.range' (n * size) (min (n * size + size) total - n * size) =
            List.range' 0 (n * size + (min (n * size + size) total - n * size)) := by
          simpa using @List.range'_append 0 (n * size) _ 1
        rw [happ]
        congr 1
        omega
  rw [hhead, Nat.min_eq_right h]

end Loops

/-! ## Pieces dealt out to ranks -/

section Pieces

variable {τ α : Type*} [DecidableEq τ]

/-- Buffer `b` of each of `r` ranks, from offset `base`: `a * L` cells, which are the next `a * L` of `val`. -/
def dealt (b : τ) (r base a L : ℕ) (val : ℕ → α) : Region (ℕ × τ) α :=
  fun k p => if k.2 = b ∧ k.1 < r ∧ base ≤ p ∧ p < base + a * L then some (val (k.1 * (a * L) + (p - base))) else none

/-- **Pieces by rows.** Pieces of `L` cells, `a` of them one after the other to each rank. -/
theorem lays_pieces (b : τ) (r base a L : ℕ) (val : ℕ → α) {f : ℕ → List (Copy (ℕ × τ) α)}
    (h : ∀ s < r * a, Lays (f s) (slab (s / a, b) (base + s % a * L) L fun j => val (s * L + j))) :
    Lays ((List.range (r * a)).flatMap f) (dealt b r base a L val) := by
  refine Lays.flatMap List.nodup_range (fun s hs => h s (List.mem_range.mp hs)) ?_ ?_
  · intro s hs k p hsome
    obtain ⟨-, hrank, hl, hpiece⟩ := piece_eq (List.mem_range.mp hs)
    obtain ⟨rfl, hlo, hhi⟩ := slab_isSome.mp hsome
    have hfit : s % a * L + L ≤ a * L := by rw [← Nat.succ_mul]; exact Nat.mul_le_mul_right L hl
    have hcell : s * L = s / a * (a * L) + s % a * L := by
      conv_lhs => rw [hpiece]
      ring
    rw [slab_of_mem ⟨hlo, hhi⟩, dealt, if_pos ⟨rfl, hrank, by omega, by omega⟩]
    congr 2
    simp only
    omega
  · rintro ⟨t, b'⟩ p hsome
    unfold dealt at hsome
    split at hsome
    · next hp =>
      obtain ⟨rfl, ht, hlo, hhi⟩ := hp
      have hL : 0 < L := Nat.pos_of_ne_zero fun h0 => by simp [h0] at hhi; omega
      have hl : (p - base) / L < a := Nat.div_lt_of_lt_mul (by rw [Nat.mul_comm]; omega)
      have hdiv := Nat.div_add_mod' (p - base) L
      have hmod := Nat.mod_lt (p - base) hL
      obtain ⟨hrank, hoff⟩ := piece_div_mod (t := t) hl
      refine ⟨t * a + (p - base) / L, List.mem_range.mpr (piece_lt ht hl), slab_isSome.mpr ⟨by rw [hrank], ?_, ?_⟩, ?_⟩
      · rw [hoff]; omega
      · rw [hoff]; omega
      · intro s _ hs
        obtain ⟨hk, hlo', hhi'⟩ := slab_isSome.mp hs
        refine piece_unique (Prod.mk.inj hk).1.symm ?_
        exact (Nat.div_eq_of_lt_le (by omega) (by rw [Nat.succ_mul]; omega)).symm
    · exact absurd hsome Bool.false_ne_true

/-- Buffer `b` of each of `r` ranks: rows of `a * w` cells, which are the next `a * w` columns of `val`. -/
def dealtStrips (b : τ) (r rows a w : ℕ) (val : ℕ → ℕ → α) : Region (ℕ × τ) α :=
  fun k p =>
    if k.2 = b ∧ k.1 < r ∧ p < rows * (a * w) then some (val (p / (a * w)) (k.1 * (a * w) + p % (a * w))) else none

/-- **Pieces by columns.** Pieces of `w` columns, `a` of them side by side to each rank. -/
theorem lays_stripPieces (b : τ) (r rows a w : ℕ) (val : ℕ → ℕ → α) {f : ℕ → List (Copy (ℕ × τ) α)}
    (h : ∀ s < r * a, Lays (f s) (strips (s / a, b) rows (a * w) (s % a * w) w fun row j => val row (s * w + j))) :
    Lays ((List.range (r * a)).flatMap f) (dealtStrips b r rows a w val) := by
  refine Lays.flatMap List.nodup_range (fun s hs => h s (List.mem_range.mp hs)) ?_ ?_
  · intro s hs k p hsome
    obtain ⟨ha, hrank, hl, hpiece⟩ := piece_eq (List.mem_range.mp hs)
    obtain ⟨rfl, hrow, hlo, hhi⟩ := strips_isSome.mp hsome
    have hpos : 0 < a * w := Nat.mul_pos ha (by omega)
    have hcell : s * w = s / a * (a * w) + s % a * w := by
      conv_lhs => rw [hpiece]
      ring
    rw [strips_of_mem ⟨hrow, hlo, hhi⟩, dealtStrips, if_pos ⟨rfl, hrank, (Nat.div_lt_iff_lt_mul hpos).mp hrow⟩]
    congr 2
    simp only
    omega
  · rintro ⟨t, b'⟩ p hsome
    unfold dealtStrips at hsome
    split at hsome
    · next hp =>
      obtain ⟨rfl, ht, hp⟩ := hp
      have hpos : 0 < a * w := Nat.pos_of_ne_zero fun h0 => by simp only [h0, Nat.mul_zero] at hp; omega
      have hw : 0 < w := Nat.pos_of_ne_zero fun h0 => by simp [h0] at hpos
      have hcol := Nat.mod_lt p hpos
      have hl : p % (a * w) / w < a := (Nat.div_lt_iff_lt_mul hw).mpr hcol
      have hdiv := Nat.div_add_mod' (p % (a * w)) w
      have hmod := Nat.mod_lt (p % (a * w)) hw
      obtain ⟨hrank, hoff⟩ := piece_div_mod (t := t) hl
      refine ⟨t * a + p % (a * w) / w, List.mem_range.mpr (piece_lt ht hl),
        strips_isSome.mpr ⟨by rw [hrank], (Nat.div_lt_iff_lt_mul hpos).mpr hp, ?_, ?_⟩, ?_⟩
      · rw [hoff]; omega
      · rw [hoff]; omega
      · intro s _ hs
        obtain ⟨hk, -, hlo', hhi'⟩ := strips_isSome.mp hs
        refine piece_unique (Prod.mk.inj hk).1.symm ?_
        exact (Nat.div_eq_of_lt_le (by omega) (by rw [Nat.succ_mul]; omega)).symm
    · exact absurd hsome Bool.false_ne_true

end Pieces

end ExpertServe.Lib
