import ExpertServe.Env
import ExpertServe.Lib.Rank

/-!
# Safe-mode routing

`_kt_topk_experiment` in its safe mode, on one routed row: the genuine top `K` slots are kept while their
expert is reachable, and every other slot is filled with the best expert of the fill pool that the row does
not name. Experts that may not be used are only masked to the least float before the top entries are taken.

* `keepMask_eq`, `safeRoute_passthrough`: with everything reachable routing keeps exactly the ranks below `K`;
* `safeRoute_honest_iff`: the fill is distinct and from the pool, however ties are broken, exactly when enough
  experts are eligible, or nothing is kept and every expert is in the pool.
-/

namespace ExpertServe

open Lib

variable {E k : ℕ} {α : Type*} [Field α]

/-- `torch.finfo(torch.float32).min`. -/
def finfoMin (α : Type*) [Field α] : α := ((-((2 ^ 24 - 1) * 2 ^ 104) : ℤ) : α)

/-- What routing reads of a layer: the device masks, and what the prefetcher published. -/
structure Placement (E : ℕ) where
  gpuExpertsMaskCuda : Finset (Fin E)
  ramExpertsMaskCuda : Finset (Fin E)
  pfLanded : Finset (Fin E)
  pfIssued : Bool

namespace Placement

/-- `reach_vec`: on the GPU or staged in host RAM. -/
def reachVec (p : Placement E) : Finset (Fin E) := p.gpuExpertsMaskCuda ∪ p.ramExpertsMaskCuda

/-- `fill_vec`: the candidates of a fill. -/
def fillVec (env : Env α) (p : Placement E) : Finset (Fin E) :=
  match env.ktTierFillPool with
  | .gpu => p.gpuExpertsMaskCuda
  | .resident => p.reachVec

/-- `on_gpu`: resident, or landed for this forward. -/
def onGpu (p : Placement E) : Finset (Fin E) :=
  if p.pfIssued then p.gpuExpertsMaskCuda ∪ p.pfLanded else p.gpuExpertsMaskCuda

theorem fillVec_subset_reachVec (env : Env α) (p : Placement E) : p.fillVec env ⊆ p.reachVec := by
  unfold fillVec
  cases env.ktTierFillPool with
  | gpu => exact Finset.subset_union_left
  | resident => exact Finset.Subset.refl _

end Placement

/-- One row of routed ids with their weights. -/
structure Row (E k : ℕ) (α : Type*) where
  ids : Fin k → Fin E
  weights : Fin k → α

/-- A row as the router makes it: distinct ids with positive weights. -/
structure RoutedRow (E k : ℕ) (α : Type*) [Field α] [LinearOrder α] extends Row E k α where
  distinct : Function.Injective ids
  positive : ∀ j, 0 < weights j

variable [LinearOrder α]

/-- `keep_mask`: among the `K` largest weights, reachable, and on the GPU where that is asked for. -/
def keepMask (env : Env α) (srt : Argsort (Fin k) α) (p : Placement E) (row : Row E k α) (K : ℕ) (j : Fin k) : Bool :=
  decide (srt.rank row.weights j < K) && decide (row.ids j ∈ p.reachVec) &&
    (!env.ktGpuOnly || decide (row.ids j ∈ p.onGpu))

/-- The scores the fill is taken from: outside the pool, and for every id of the row, the least float. -/
def fillScores (env : Env α) (p : Placement E) (row : Row E k α) (scores : Fin E → α) (e : Fin E) : α :=
  if ∃ j, row.ids j = e then finfoMin α else if e ∈ p.fillVec env then scores e else finfoMin α

/-- `w_drop`: the weights of the dropped slots. -/
def dropWeights (keep : Fin k → Bool) (row : Row E k α) (j : Fin k) : α :=
  if keep j then finfoMin α else row.weights j

/-- The part of `_kt_topk_experiment` behind the keep decision, one row: the dropped slot of rank `r` among the dropped
ones takes the fill of rank `r`. -/
def substitute (env : Env α) (srtRow : Argsort (Fin k) α) (srtAll : Argsort (Fin E) α) (sigmoid : α → α)
    (p : Placement E) (row : Row E k α) (scores : Fin E → α) (keep : Fin k → Bool) : Row E k α :=
  let s := fillScores env p row scores
  let fillIds := (srtAll.order s).take k
  let drank := srtRow.rank (dropWeights keep row)
  let selFillIds := fun j => (fillIds[drank j]?).getD (row.ids j)
  let newW := fun j => if keep j then row.weights j else sigmoid (s (selFillIds j))
  { ids := fun j => if keep j then row.ids j else selFillIds j
    weights := fun j => newW j / max (∑ i, newW i) (eMinus 9) }

/-- `_kt_topk_experiment` in safe mode, one row. -/
def safeRoute (env : Env α) (srtRow : Argsort (Fin k) α) (srtAll : Argsort (Fin E) α) (sigmoid : α → α)
    (p : Placement E) (row : Row E k α) (scores : Fin E → α) (K : ℕ) : Row E k α :=
  substitute env srtRow srtAll sigmoid p row scores (keepMask env srtRow p row K)

/-- The emitted ids are pairwise distinct, each is a kept genuine one or in the fill pool, and so none is on
disk only. -/
structure HonestFill (env : Env α) (p : Placement E) (keep : Fin k → Bool) (row out : Row E k α) : Prop where
  distinct : Function.Injective out.ids
  source : ∀ j, (∃ i, keep i = true ∧ out.ids j = row.ids i) ∨ out.ids j ∈ p.fillVec env
  reachable : ∀ j, out.ids j ∈ p.reachVec

/-- The slots that are not kept. -/
def dropped (keep : Fin k → Bool) : Finset (Fin k) := Finset.univ.filter fun j => keep j = false

/-- The experts a fill may use: in the pool, not named by the row, and above the least float. -/
def eligible (env : Env α) (p : Placement E) (row : Row E k α) (scores : Fin E → α) : Finset (Fin E) :=
  (p.fillVec env).filter fun e => (∀ j, row.ids j ≠ e) ∧ finfoMin α < scores e

/-- What the fill relies on: distinct ids, and weights above the least float. -/
structure Row.Fillable (row : Row E k α) : Prop where
  distinct : Function.Injective row.ids
  above : ∀ j, finfoMin α < row.weights j

section Keep

variable {env : Env α} {srt : Argsort (Fin k) α} {p : Placement E} {row : Row E k α} {K : ℕ}

/-- A kept expert is reachable. -/
theorem mem_reachVec_of_keep {j : Fin k} (h : keepMask env srt p row K j = true) : row.ids j ∈ p.reachVec := by
  unfold keepMask at h
  simp only [Bool.and_eq_true, decide_eq_true_eq] at h
  exact h.1.2

/-- With every expert reachable exactly the ranks below `K` are kept. -/
theorem keepMask_eq (hreach : p.reachVec = Finset.univ) (hall : env.ktGpuOnly = false) (j : Fin k) :
    keepMask env srt p row K j = decide (srt.rank row.weights j < K) := by
  unfold keepMask
  simp [hreach, hall]

/-- With everything reachable and `K` the number of slots, the ids pass through, and so do weights that are
already normalised. -/
theorem safeRoute_passthrough [IsStrictOrderedRing α] (srtAll : Argsort (Fin E) α) (sigmoid : α → α)
    (scores : Fin E → α) (hreach : p.reachVec = Finset.univ) (hall : env.ktGpuOnly = false) :
    (safeRoute env srt srtAll sigmoid p row scores k).ids = row.ids ∧
      (∑ j, row.weights j = 1 → (safeRoute env srt srtAll sigmoid p row scores k).weights = row.weights) := by
  have hkeep : ∀ j, keepMask env srt p row k j = true := fun j => by
    rw [keepMask_eq hreach hall]
    exact decide_eq_true (srt.rank_lt row.weights j)
  unfold safeRoute substitute
  simp only [hkeep, if_true, true_and]
  intro hsum
  have hfloor : (eMinus 9 : α) ≤ 1 := eMinus_le_one 9
  funext j
  rw [hsum, max_eq_left hfloor, div_one]

end Keep

/-! ## When the fill is honest -/

section Fill

variable {env : Env α} {srtRow : Argsort (Fin k) α} {srtAll : Argsort (Fin E) α} {sigmoid : α → α} {p : Placement E}
  {scores : Fin E → α} {K : ℕ}

theorem fillScores_lt_iff {row : Row E k α} {e : Fin E} :
    finfoMin α < fillScores env p row scores e ↔ e ∈ eligible env p row scores := by
  unfold fillScores eligible
  rw [Finset.mem_filter]
  by_cases hrow : ∃ j, row.ids j = e
  · rw [if_pos hrow]
    obtain ⟨j, hj⟩ := hrow
    exact ⟨fun h => absurd h (lt_irrefl _), fun h => absurd hj (h.2.1 j)⟩
  · rw [if_neg hrow]
    push Not at hrow
    by_cases hpool : e ∈ p.fillVec env
    · rw [if_pos hpool]
      exact ⟨fun h => ⟨hpool, hrow, h⟩, fun h => h.2.2⟩
    · rw [if_neg hpool]
      exact ⟨fun h => absurd h (lt_irrefl _), fun h => absurd h.1 hpool⟩

/-- The fills are ranked eligible experts first. -/
theorem fill_rank_lt_iff {row : Row E k α} {e : Fin E} :
    srtAll.rank (fillScores env p row scores) e < (eligible env p row scores).card ↔ e ∈ eligible env p row scores := by
  have hcard : eligible env p row scores =
      Finset.univ.filter fun e => finfoMin α < fillScores env p row scores e := by
    ext e
    rw [Finset.mem_filter, fillScores_lt_iff]
    exact ⟨fun h => ⟨Finset.mem_univ e, h⟩, fun h => h.2⟩
  rw [← fillScores_lt_iff, ← srtAll.rank_lt_card_iff, ← hcard]

variable {row : Row E k α} {keep : Fin k → Bool}

/-- A dropped slot emits the expert whose fill rank is its drop rank. -/
theorem substitute_ids_eq_iff (hrow : row.Fillable) {j : Fin k} {e : Fin E} (hj : keep j = false) :
    (substitute env srtRow srtAll sigmoid p row scores keep).ids j = e ↔
      srtAll.rank (fillScores env p row scores) e = srtRow.rank (dropWeights keep row) j := by
  have hkE : k ≤ E := by simpa using Fintype.card_le_of_injective _ hrow.distinct
  have hlt := srtRow.rank_lt (dropWeights keep row) j
  obtain ⟨e', he'⟩ := srtAll.exists_rank_eq (fillScores env p row scores) (hlt.trans_le hkE)
  have hids : (substitute env srtRow srtAll sigmoid p row scores keep).ids j = e' := by
    unfold substitute
    dsimp only
    rw [hj, if_neg Bool.false_ne_true, List.getElem?_take_of_lt hlt,
      (srtAll.getElem?_order_eq_some_iff _).mpr he', Option.getD_some]
  rw [hids, ← he', (srtAll.rank_injective _).eq_iff]
  exact eq_comm

theorem substitute_ids_of_keep {j : Fin k} (hj : keep j = true) :
    (substitute env srtRow srtAll sigmoid p row scores keep).ids j = row.ids j := by
  unfold substitute
  dsimp only
  rw [hj, if_pos rfl]

theorem rank_substitute_ids (hrow : row.Fillable) {j : Fin k} (hj : keep j = false) :
    srtAll.rank (fillScores env p row scores) ((substitute env srtRow srtAll sigmoid p row scores keep).ids j) =
      srtRow.rank (dropWeights keep row) j :=
  (substitute_ids_eq_iff hrow hj).mp rfl

/-- Two dropped slots emit different experts. -/
theorem substitute_ids_inj_of_drop (hrow : row.Fillable) {i j : Fin k} (hi : keep i = false) (hj : keep j = false)
    (h : (substitute env srtRow srtAll sigmoid p row scores keep).ids i =
      (substitute env srtRow srtAll sigmoid p row scores keep).ids j) : i = j := by
  have hrank := (substitute_ids_eq_iff hrow hi).mp h
  rw [rank_substitute_ids hrow hj] at hrank
  exact srtRow.rank_injective _ hrank.symm

/-- Among the slots the dropped ones come first. -/
theorem drop_rank_lt_iff (hrow : row.Fillable) {j : Fin k} :
    srtRow.rank (dropWeights keep row) j < (dropped keep).card ↔ keep j = false := by
  have hlt : ∀ j, finfoMin α < dropWeights keep row j ↔ keep j = false := fun j => by
    unfold dropWeights
    cases keep j with
    | true => simp
    | false => simpa using hrow.above j
  have hcard : dropped keep = Finset.univ.filter fun j => finfoMin α < dropWeights keep row j := by
    unfold dropped
    simp only [hlt]
  rw [← hlt, ← srtRow.rank_lt_card_iff, ← hcard]

variable (srtRow srtAll sigmoid) in
/-- With enough eligible experts every fill is one of them. -/
theorem substitute_eligible (hrow : row.Fillable) (h : (dropped keep).card ≤ (eligible env p row scores).card)
    {j : Fin k} (hj : keep j = false) :
    (substitute env srtRow srtAll sigmoid p row scores keep).ids j ∈ eligible env p row scores := by
  rw [← fill_rank_lt_iff, rank_substitute_ids hrow hj]
  exact ((drop_rank_lt_iff hrow).mpr hj).trans_le h

/-- With enough eligible experts what is emitted is honest. -/
theorem safeRoute_honest_of_card (hrow : row.Fillable)
    (h : (dropped (keepMask env srtRow p row K)).card ≤ (eligible env p row scores).card) :
    HonestFill env p (keepMask env srtRow p row K) row (safeRoute env srtRow srtAll sigmoid p row scores K) := by
  have hfill : ∀ j, keepMask env srtRow p row K j = false →
      (substitute env srtRow srtAll sigmoid p row scores (keepMask env srtRow p row K)).ids j ∈
        eligible env p row scores := fun j hj => substitute_eligible _ _ _ hrow h hj
  unfold safeRoute
  refine ⟨fun i j hij => ?_, fun j => ?_, fun j => ?_⟩
  · cases hi : keepMask env srtRow p row K i with
    | true =>
      cases hj : keepMask env srtRow p row K j with
      | true =>
        rw [substitute_ids_of_keep hi, substitute_ids_of_keep hj] at hij
        exact hrow.distinct hij
      | false =>
        have hmem := hfill j hj
        rw [← hij, substitute_ids_of_keep hi] at hmem
        exact absurd rfl ((Finset.mem_filter.mp hmem).2.1 i)
    | false =>
      cases hj : keepMask env srtRow p row K j with
      | true =>
        have hmem := hfill i hi
        rw [hij, substitute_ids_of_keep hj] at hmem
        exact absurd rfl ((Finset.mem_filter.mp hmem).2.1 j)
      | false => exact substitute_ids_inj_of_drop hrow hi hj hij
  · cases hj : keepMask env srtRow p row K j with
    | true => exact Or.inl ⟨j, hj, substitute_ids_of_keep hj⟩
    | false => exact Or.inr (Finset.mem_filter.mp (hfill j hj)).1
  · cases hj : keepMask env srtRow p row K j with
    | true =>
      rw [substitute_ids_of_keep hj]
      exact mem_reachVec_of_keep hj
    | false => exact p.fillVec_subset_reachVec env (Finset.mem_filter.mp (hfill j hj)).1

/-- With nothing kept and every expert in the pool, whatever is emitted is distinct and allowed. -/
theorem safeRoute_honest_of_pool (hrow : row.Fillable) (hpool : p.fillVec env = Finset.univ)
    (hnone : ∀ j, keepMask env srtRow p row K j = false) :
    HonestFill env p (keepMask env srtRow p row K) row (safeRoute env srtRow srtAll sigmoid p row scores K) := by
  have hmem : ∀ e, e ∈ p.fillVec env := fun e => hpool ▸ Finset.mem_univ e
  exact ⟨fun i j hij => substitute_ids_inj_of_drop hrow (hnone i) (hnone j) hij, fun j => Or.inr (hmem _),
    fun j => p.fillVec_subset_reachVec env (hmem _)⟩

variable (srtRow) in
/-- An expert ranked below the number of dropped slots is emitted by one of them. -/
theorem exists_slot_of_rank_lt (hrow : row.Fillable) (sigmoid : α → α) {e : Fin E}
    (h : srtAll.rank (fillScores env p row scores) e < (dropped keep).card) :
    ∃ j, keep j = false ∧ (substitute env srtRow srtAll sigmoid p row scores keep).ids j = e := by
  have hslots : (dropped keep).card ≤ k := by simpa using (dropped keep).card_le_univ
  obtain ⟨j, hj⟩ := srtRow.exists_rank_eq (dropWeights keep row) (h.trans_le hslots)
  have hdrop : keep j = false := (drop_rank_lt_iff hrow).mp (hj.trans_lt h)
  exact ⟨j, hdrop, (substitute_ids_eq_iff hrow hdrop).mpr hj.symm⟩

variable (srtRow) in
/-- Short of eligible experts, some way to break ties emits any expert that is masked to the least float. -/
theorem exists_substitute_ids_eq (hrow : row.Fillable) (sigmoid : α → α) {b : Fin E}
    (hb : fillScores env p row scores b = finfoMin α) (h : (eligible env p row scores).card < (dropped keep).card) :
    ∃ j, keep j = false ∧ (substitute env srtRow (Argsort.favouring {b}) sigmoid p row scores keep).ids j = b := by
  have hcard : eligible env p row scores =
      Finset.univ.filter fun e => fillScores env p row scores b < fillScores env p row scores e := by
    ext e
    rw [Finset.mem_filter, hb, fillScores_lt_iff]
    exact ⟨fun h => ⟨Finset.mem_univ e, h⟩, fun h => h.2⟩
  refine exists_slot_of_rank_lt srtRow hrow sigmoid ?_
  rwa [Argsort.rank_favouring, ← hcard]

end Fill

theorem finfoMin_neg [IsStrictOrderedRing α] : finfoMin α < 0 := by
  unfold finfoMin
  norm_num

theorem RoutedRow.fillable [IsStrictOrderedRing α] (row : RoutedRow E k α) : row.toRow.Fillable :=
  ⟨row.distinct, fun j => finfoMin_neg.trans (row.positive j)⟩

/-- **When the fill is honest.** For every row, every `K`, every placement and every score vector, what routing
emits is distinct and from the kept experts or the pool, however equal scores are ordered, exactly when no more
slots are dropped than experts are eligible, or nothing is kept and every expert is in the pool. -/
theorem safeRoute_honest_iff [IsStrictOrderedRing α] (env : Env α) (srtRow : Argsort (Fin k) α) (sigmoid : α → α)
    (p : Placement E) (row : RoutedRow E k α) (scores : Fin E → α) (K : ℕ) :
    (∀ srtAll : Argsort (Fin E) α, HonestFill env p (keepMask env srtRow p row.toRow K) row.toRow
        (safeRoute env srtRow srtAll sigmoid p row.toRow scores K)) ↔
      (dropped (keepMask env srtRow p row.toRow K)).card ≤ (eligible env p row.toRow scores).card ∨
        (p.fillVec env = Finset.univ ∧ ∀ j, keepMask env srtRow p row.toRow K j = false) := by
  have hrow : row.toRow.Fillable := row.fillable
  constructor
  · intro h
    unfold safeRoute at h
    by_contra hcond
    push Not at hcond
    obtain ⟨hshort, hpool⟩ := hcond
    by_cases hall : p.fillVec env = Finset.univ
    · -- a kept expert is masked as an id of the row, and emitted a second time
      obtain ⟨i, hi⟩ := hpool hall
      have hi := Bool.eq_true_of_not_eq_false hi
      have hmasked : fillScores env p row.toRow scores (row.ids i) = finfoMin α := if_pos ⟨i, rfl⟩
      obtain ⟨j, hj, hemit⟩ := exists_substitute_ids_eq srtRow hrow sigmoid hmasked hshort
      have hsame := (h (Argsort.favouring {row.ids i})).distinct (hemit.trans (substitute_ids_of_keep hi).symm)
      rw [hsame, hi] at hj
      exact absurd hj.symm Bool.false_ne_true
    · -- an expert outside the pool is masked, and emitted
      obtain ⟨b, hb⟩ : ∃ b, b ∉ p.fillVec env := by
        by_contra hno
        push Not at hno
        exact hall (Finset.eq_univ_iff_forall.mpr hno)
      have hmasked : fillScores env p row.toRow scores b = finfoMin α := by
        unfold fillScores
        rw [if_neg hb, ite_self]
      obtain ⟨j, hj, hemit⟩ := exists_substitute_ids_eq srtRow hrow sigmoid hmasked hshort
      rcases (h (Argsort.favouring {b})).source j with ⟨i, hi, hkept⟩ | hmem
      · have hsame := (h (Argsort.favouring {b})).distinct (hkept.trans (substitute_ids_of_keep hi).symm)
        rw [hsame, hi] at hj
        exact absurd hj.symm Bool.false_ne_true
      · rw [hemit] at hmem
        exact hb hmem
  · rintro (hcard | ⟨hpool, hnone⟩) srtAll
    · exact safeRoute_honest_of_card hrow hcard
    · exact safeRoute_honest_of_pool hrow hpool hnone

/-- Eight slots that name the experts 8 to 15, all with the same weight. -/
def upperRow : RoutedRow 16 8 ℚ where
  ids j := ⟨j + 8, by omega⟩
  weights _ := 1 / 8
  distinct i j h := Fin.ext (by simpa using congrArg Fin.val h)
  positive _ := by norm_num

/-- The first `g` experts on the GPU, the experts 4 and 5 in RAM, and the others on disk only. -/
def gpuFirst (g : ℕ) : Placement 16 where
  gpuExpertsMaskCuda := Finset.univ.filter fun e => e.val < g
  ramExpertsMaskCuda := {4, 5} \ Finset.univ.filter fun e => e.val < g
  pfLanded := ∅
  pfIssued := false

/-- The sigmoid on the two scores that occur below, 0 and the least float. -/
def sigmoidZero (x : ℚ) : ℚ := if x < 0 then 0 else 1 / 2

theorem safeRoute_honest_iff_gpuFirst_eight :
    HonestFill ({} : Env ℚ) (gpuFirst 8) (keepMask {} Argsort.stable (gpuFirst 8) upperRow.toRow 0) upperRow.toRow
      (safeRoute {} Argsort.stable Argsort.stable sigmoidZero (gpuFirst 8) upperRow.toRow (fun _ => 0) 0) := by
  refine (safeRoute_honest_iff ({} : Env ℚ) Argsort.stable sigmoidZero (gpuFirst 8) upperRow (fun _ => 0) 0).mpr ?_
    Argsort.stable
  exact Or.inl (by decide +kernel)

/-- Four experts on the GPU are too few to fill eight slots: the experts 6 and 7, which are on disk only, are
emitted. -/
theorem four_on_gpu_emits_ssd :
    ¬ HonestFill ({} : Env ℚ) (gpuFirst 4) (keepMask {} Argsort.stable (gpuFirst 4) upperRow.toRow 0) upperRow.toRow
      (safeRoute {} Argsort.stable Argsort.stable sigmoidZero (gpuFirst 4) upperRow.toRow (fun _ => 0) 0) := by
  intro h
  have hreach := h.reachable 7
  revert hreach
  decide +kernel

end ExpertServe
