import ExpertServe.Forward.Transfer
import Mathlib.Data.Fin.VecNotation
import Mathlib.Tactic.FieldSimp
import Mathlib.Tactic.Linarith

/-!
# What a substitution does to the router's preference

A row comes in with the router scores of its experts over their mass. A kept slot stays on that scale, and a dropped
one takes the bare score of the expert it receives, before both are normalised together.

* `Row.Preferring`, `Row.Proportional`: the weights are in the order of the router scores, or proportional to them;
* `fillCandidates`: the experts a dropped slot may receive, under some way to break ties;
* `KeepsOrder`, `OneScale`: what the scores, the pool and the keep mask must be like;
* `substitute_preferring_iff`: when the row that goes out is in the order of the router scores, and when its weights are
  proportional to them.
-/

namespace ExpertServe

open Lib

variable {E k : ℕ} {α : Type*} [Field α]

/-- The mass of the router scores of the experts a row names. -/
def scoreMass (sigmoid : α → α) (scores : Fin E → α) (ids : Fin k → Fin E) : α := ∑ j, sigmoid (scores (ids j))

/-- A row of distinct ids whose weights are their router scores, renormalised. -/
structure ScoredRow (E k : ℕ) {α : Type*} [Field α] (sigmoid : α → α) (scores : Fin E → α) extends Row E k α where
  distinct : Function.Injective ids
  renormalised : ∀ j, weights j = sigmoid (scores (ids j)) / scoreMass sigmoid scores ids

variable [LinearOrder α]

/-- No expert with a higher router score has a smaller weight. -/
def Row.Preferring (sigmoid : α → α) (scores : Fin E → α) (row : Row E k α) : Prop :=
  ∀ i j, sigmoid (scores (row.ids i)) < sigmoid (scores (row.ids j)) → row.weights i ≤ row.weights j

omit [LinearOrder α] in
/-- The weights are proportional to the router scores. -/
def Row.Proportional (sigmoid : α → α) (scores : Fin E → α) (row : Row E k α) : Prop :=
  ∀ i j, row.weights i * sigmoid (scores (row.ids j)) = row.weights j * sigmoid (scores (row.ids i))

/-- The experts with fewer larger fill scores than there are dropped slots. -/
def fillCandidates (env : Env α) (p : Placement E) (row : Row E k α) (scores : Fin E → α) (keep : Fin k → Bool) :
    Finset (Fin E) :=
  Finset.univ.filter fun e =>
    (Finset.univ.filter fun e' => fillScores env p row scores e < fillScores env p row scores e').card <
      (dropped keep).card

/-- The bare scores of the candidates, times the mass of the row, are on the right side of the scores of the kept
experts; and the candidates are ranked in the order of their own scores. -/
structure ScalesAgree (env : Env α) (p : Placement E) (sigmoid : α → α) (scores : Fin E → α) (keep : Fin k → Bool)
    (row : Row E k α) : Prop where
  below : ∀ i, keep i = true → ∀ e ∈ fillCandidates env p row scores keep,
    sigmoid (scores e) < sigmoid (scores (row.ids i)) →
      scoreMass sigmoid scores row.ids * sigmoid (fillScores env p row scores e) ≤ sigmoid (scores (row.ids i))
  above : ∀ i, keep i = true → ∀ e ∈ fillCandidates env p row scores keep,
    sigmoid (scores (row.ids i)) < sigmoid (scores e) →
      sigmoid (scores (row.ids i)) ≤ scoreMass sigmoid scores row.ids * sigmoid (fillScores env p row scores e)
  among : ∀ e ∈ fillCandidates env p row scores keep, ∀ e' ∈ fillCandidates env p row scores keep,
    sigmoid (scores e) < sigmoid (scores e') →
      sigmoid (fillScores env p row scores e) ≤ sigmoid (fillScores env p row scores e')

/-! ## Conditions on the scores, the pool and the keep mask -/

omit [LinearOrder α] in
/-- A kept expert's router score on the scale of the fills: over the mass of the row. -/
def keptShare (sigmoid : α → α) (scores : Fin E → α) (ids : Fin k → Fin E) (i : Fin k) : α :=
  sigmoid (scores (ids i)) / scoreMass sigmoid scores ids

/-- The experts a fill may not use, all masked to the least float: those the row names, those outside the pool, and
those whose score is the least float. -/
def maskedOut (env : Env α) (p : Placement E) (row : Row E k α) (scores : Fin E → α) : Finset (Fin E) :=
  Finset.univ.filter fun e => (∃ j, row.ids j = e) ∨ e ∉ p.fillVec env ∨ scores e = finfoMin α

/-- Between the score of a kept expert and its share lies no eligible expert, or there are enough of them above to fill
every dropped slot. Where the eligible ones run out and masked ones go out at the sigmoid of the least float, a kept expert
over that value times the mass has the highest score of the masked ones, one under it has the lowest, and an eligible
expert has the highest score or that very value. -/
structure KeepsOrder (env : Env α) (p : Placement E) (sigmoid : α → α) (scores : Fin E → α) (keep : Fin k → Bool)
    (row : Row E k α) : Prop where
  clear : ∀ i, keep i = true →
    (dropped keep).card ≤ ((eligible env p row scores).filter fun e =>
        max (sigmoid (scores (row.ids i))) (keptShare sigmoid scores row.ids i) ≤ sigmoid (scores e)).card ∨
      ∀ e ∈ eligible env p row scores,
        sigmoid (scores e) ≤ min (sigmoid (scores (row.ids i))) (keptShare sigmoid scores row.ids i) ∨
          max (sigmoid (scores (row.ids i))) (keptShare sigmoid scores row.ids i) ≤ sigmoid (scores e)
  keptShort : (eligible env p row scores).card < (dropped keep).card → ∀ i, keep i = true →
    (sigmoid (finfoMin α) < keptShare sigmoid scores row.ids i →
      ∀ e ∈ maskedOut env p row scores, sigmoid (scores e) ≤ sigmoid (scores (row.ids i))) ∧
    (keptShare sigmoid scores row.ids i < sigmoid (finfoMin α) →
      ∀ e ∈ maskedOut env p row scores, sigmoid (scores (row.ids i)) ≤ sigmoid (scores e))
  fillShort : (eligible env p row scores).card < (dropped keep).card → ∀ e ∈ eligible env p row scores,
    sigmoid (scores e) = sigmoid (finfoMin α) ∨
      ∀ e' ∈ maskedOut env p row scores, sigmoid (scores e') ≤ sigmoid (scores e)

/-- Masked experts have one router score: the mass times the sigmoid of the least float where something is kept, and
that sigmoid itself where something is eligible. -/
structure OneScale (env : Env α) (p : Placement E) (sigmoid : α → α) (scores : Fin E → α) (keep : Fin k → Bool)
    (row : Row E k α) : Prop where
  kept : (∃ i, keep i = true) → ∀ e ∈ maskedOut env p row scores,
    sigmoid (scores e) = scoreMass sigmoid scores row.ids * sigmoid (finfoMin α)
  fill : (eligible env p row scores).Nonempty → ∀ e ∈ maskedOut env p row scores,
    sigmoid (scores e) = sigmoid (finfoMin α)
  masked : ∀ e ∈ maskedOut env p row scores, ∀ e' ∈ maskedOut env p row scores,
    sigmoid (scores e) = sigmoid (scores e')

section Mass

variable [IsStrictOrderedRing α] {sigmoid : α → α} {scores : Fin E → α}

theorem scoreMass_pos (hpos : ∀ x, 0 < sigmoid x) (ids : Fin k → Fin E) (j : Fin k) :
    0 < scoreMass sigmoid scores ids :=
  Finset.sum_pos (fun i _ => hpos (scores (ids i))) ⟨j, Finset.mem_univ j⟩

theorem ScoredRow.fillable (hpos : ∀ x, 0 < sigmoid x) (row : ScoredRow E k sigmoid scores) : row.toRow.Fillable := by
  refine ⟨row.distinct, fun j => finfoMin_neg.trans ?_⟩
  rw [row.renormalised]
  exact div_pos (hpos _) (scoreMass_pos hpos row.ids j)

end Mass

/-! ## Who fills a dropped slot -/

section Candidates

variable {env : Env α} {srtRow : Argsort (Fin k) α} {srtAll : Argsort (Fin E) α} {sigmoid : α → α} {p : Placement E}
  {row : Row E k α} {scores : Fin E → α} {keep : Fin k → Bool}

variable (env srtRow srtAll sigmoid p scores) in
/-- Whatever a dropped slot receives is a candidate. -/
theorem substitute_mem_fillCandidates (hrow : row.Fillable) {j : Fin k} (hj : keep j = false) :
    (substitute env srtRow srtAll sigmoid p row scores keep).ids j ∈ fillCandidates env p row scores keep := by
  refine Finset.mem_filter.mpr ⟨Finset.mem_univ _, ?_⟩
  have hrank : srtRow.rank (dropWeights keep row) j < (dropped keep).card := (drop_rank_lt_iff hrow).mpr hj
  have hfill : srtAll.rank (fillScores env p row scores)
      ((substitute env srtRow srtAll sigmoid p row scores keep).ids j) = _ := rank_substitute_ids hrow hj
  rw [← hfill] at hrank
  refine lt_of_le_of_lt ?_ hrank
  by_contra hlt
  exact lt_irrefl _ ((srtAll.rank_lt_card_iff _ _ _).mp (not_le.mp hlt))

variable (srtRow) in
/-- Every candidate is received by a dropped slot, if ties are broken in its favour; and so is every expert ranked
above it. -/
theorem exists_slot_of_candidate (hrow : row.Fillable) (sigmoid : α → α) {b e : Fin E}
    (hb : b ∈ fillCandidates env p row scores keep)
    (he : e = b ∨ fillScores env p row scores b < fillScores env p row scores e) :
    ∃ j, keep j = false ∧ (substitute env srtRow (Argsort.favouring {b}) sigmoid p row scores keep).ids j = e := by
  have hcard := (Finset.mem_filter.mp hb).2
  refine exists_slot_of_rank_lt srtRow hrow sigmoid ?_
  rcases he with rfl | hlarger
  · rwa [Argsort.rank_favouring]
  · exact (((Argsort.favouring {b}).rank_lt_card_iff _ _ _).mpr hlarger).trans hcard

theorem mem_maskedOut {e : Fin E} : e ∈ maskedOut env p row scores ↔
    (∃ j, row.ids j = e) ∨ e ∉ p.fillVec env ∨ scores e = finfoMin α := by
  unfold maskedOut
  rw [Finset.mem_filter, and_iff_right (Finset.mem_univ e)]

theorem fillScores_of_maskedOut {e : Fin E} (he : e ∈ maskedOut env p row scores) :
    fillScores env p row scores e = finfoMin α := by
  unfold fillScores
  rcases mem_maskedOut.mp he with hrow | hpool | hleast
  · exact if_pos hrow
  · rw [if_neg hpool, ite_self]
  · rw [hleast, ite_self, ite_self]

theorem fillScores_of_eligible {e : Fin E} (he : e ∈ eligible env p row scores) :
    fillScores env p row scores e = scores e := by
  obtain ⟨hpool, hnew, -⟩ := Finset.mem_filter.mp he
  exact fillScores_of_pool hpool hnew

/-- Everything above the least float is eligible. -/
theorem filter_finfoMin_lt :
    (Finset.univ.filter fun e => finfoMin α < fillScores env p row scores e) = eligible env p row scores := by
  ext e
  rw [Finset.mem_filter, fillScores_lt_iff, and_iff_right (Finset.mem_univ e)]

/-- A dropped slot may receive the best of the eligible experts, and any masked one where these run out. -/
theorem mem_fillCandidates_iff (hrow : row.Fillable) {e : Fin E} :
    e ∈ fillCandidates env p row scores keep ↔
      (e ∈ eligible env p row scores ∧
        ((eligible env p row scores).filter fun e' => scores e < scores e').card < (dropped keep).card) ∨
      (e ∈ maskedOut env p row scores ∧ (eligible env p row scores).card < (dropped keep).card) := by
  unfold fillCandidates
  rw [Finset.mem_filter, and_iff_right (Finset.mem_univ e)]
  by_cases helig : e ∈ eligible env p row scores
  · have hmask : e ∉ maskedOut env p row scores := fun h => by
      have hlt := fillScores_lt_iff.mpr helig
      rw [fillScores_of_maskedOut h] at hlt
      exact lt_irrefl _ hlt
    have hset : (Finset.univ.filter fun e' => fillScores env p row scores e < fillScores env p row scores e') =
        (eligible env p row scores).filter fun e' => scores e < scores e' := by
      ext e'
      rw [Finset.mem_filter, Finset.mem_filter, and_iff_right (Finset.mem_univ e'), fillScores_of_eligible helig]
      constructor
      · intro hlt
        have helig' : e' ∈ eligible env p row scores :=
          fillScores_lt_iff.mp ((Finset.mem_filter.mp helig).2.2.trans hlt)
        exact ⟨helig', fillScores_of_eligible helig' ▸ hlt⟩
      · rintro ⟨helig', hlt⟩
        rwa [fillScores_of_eligible helig']
    rw [hset]
    simp [helig, hmask]
  · by_cases hmask : e ∈ maskedOut env p row scores
    · rw [fillScores_of_maskedOut hmask, filter_finfoMin_lt]
      simp [helig, hmask]
    · -- below the least float: whoever the row names comes before it
      simp only [helig, hmask, false_and, or_self, iff_false, not_lt]
      rw [mem_maskedOut] at hmask
      push Not at hmask
      obtain ⟨hnew, hpool, hne⟩ := hmask
      have hlow : scores e < finfoMin α := by
        refine lt_of_le_of_ne (not_lt.mp fun hlt => helig ?_) hne
        exact Finset.mem_filter.mpr ⟨hpool, hnew, hlt⟩
      have hslots : (dropped keep).card ≤ k := by simpa using (dropped keep).card_le_univ
      refine hslots.trans ?_
      calc k = (Finset.univ.image row.ids).card := by
            rw [Finset.card_image_of_injective _ hrow.distinct, Finset.card_univ, Fintype.card_fin]
        _ ≤ _ := Finset.card_le_card fun e' he' => ?_
      obtain ⟨j, -, rfl⟩ := Finset.mem_image.mp he'
      refine Finset.mem_filter.mpr ⟨Finset.mem_univ _, ?_⟩
      rw [fillScores_of_pool hpool hnew, fillScores_of_maskedOut (mem_maskedOut.mpr (Or.inl ⟨j, rfl⟩))]
      exact hlow

end Candidates

/-! ## The order of the weights -/

section Order

variable {env : Env α} {srtRow : Argsort (Fin k) α} {srtAll : Argsort (Fin E) α}
  {sigmoid : α → α} {p : Placement E} {scores : Fin E → α} {row : ScoredRow E k sigmoid scores} {keep : Fin k → Bool}

/-- The weights that go out are in the order of the offered ones. -/
theorem substitute_weights_le_iff [IsStrictOrderedRing α] {i j : Fin k} :
    (substitute env srtRow srtAll sigmoid p row.toRow scores keep).weights i ≤
        (substitute env srtRow srtAll sigmoid p row.toRow scores keep).weights j ↔
      offeredWeight env p sigmoid row.toRow scores keep
          (substitute env srtRow srtAll sigmoid p row.toRow scores keep).ids i ≤
        offeredWeight env p sigmoid row.toRow scores keep
          (substitute env srtRow srtAll sigmoid p row.toRow scores keep).ids j := by
  rw [substitute_weights_eq, substitute_weights_eq]
  exact div_le_div_iff_of_pos_right (lt_max_of_lt_right (eMinus_pos 9))

omit [LinearOrder α] in
theorem offeredWeight_of_keep (ids : Fin k → Fin E) {i : Fin k} (hi : keep i = true) :
    offeredWeight env p sigmoid row.toRow scores keep ids i =
      sigmoid (scores (row.ids i)) / scoreMass sigmoid scores row.ids := by
  rw [offeredWeight, if_pos hi, row.renormalised]

omit [LinearOrder α] in
theorem offeredWeight_of_drop (ids : Fin k → Fin E) {j : Fin k} (hj : keep j = false) :
    offeredWeight env p sigmoid row.toRow scores keep ids j =
      sigmoid (fillScores env p row.toRow scores (ids j)) := by
  rw [offeredWeight, hj, if_neg Bool.false_ne_true]

variable [IsStrictOrderedRing α]

/-- Where the scales agree, the row that goes out is in the order of the router scores. -/
theorem substitute_preferring (hpos : ∀ x, 0 < sigmoid x) (h : ScalesAgree env p sigmoid scores keep row.toRow) :
    (substitute env srtRow srtAll sigmoid p row.toRow scores keep).Preferring sigmoid scores := by
  have hrow : row.toRow.Fillable := row.fillable hpos
  intro i j hlt
  have hmass : 0 < scoreMass sigmoid scores row.ids := scoreMass_pos hpos row.ids i
  rw [substitute_weights_le_iff]
  cases hi : keep i with
  | true =>
    rw [substitute_ids_of_keep hi] at hlt
    rw [offeredWeight_of_keep _ hi]
    cases hj : keep j with
    | true =>
      rw [substitute_ids_of_keep hj] at hlt
      rw [offeredWeight_of_keep _ hj]
      exact div_le_div_of_nonneg_right hlt.le hmass.le
    | false =>
      rw [offeredWeight_of_drop _ hj, div_le_iff₀' hmass]
      exact h.above i hi _ (substitute_mem_fillCandidates _ _ _ _ _ _ hrow hj) hlt
  | false =>
    rw [offeredWeight_of_drop _ hi]
    have hcand := substitute_mem_fillCandidates env srtRow srtAll sigmoid p scores hrow hi
    cases hj : keep j with
    | true =>
      rw [substitute_ids_of_keep hj] at hlt
      rw [offeredWeight_of_keep _ hj, le_div_iff₀' hmass]
      exact h.below j hj _ hcand hlt
    | false =>
      rw [offeredWeight_of_drop _ hj]
      exact h.among _ hcand _ (substitute_mem_fillCandidates _ _ _ _ _ _ hrow hj) hlt

/-- Where the order survives however ties are broken, the scales agree: every candidate can be met by a kept expert,
and by every candidate that is ranked above it. -/
theorem scalesAgree_of_preferring (srtRow : Argsort (Fin k) α) (hpos : ∀ x, 0 < sigmoid x) (hmono : Monotone sigmoid)
    (h : ∀ srtAll : Argsort (Fin E) α,
      (substitute env srtRow srtAll sigmoid p row.toRow scores keep).Preferring sigmoid scores) :
    ScalesAgree env p sigmoid scores keep row.toRow := by
  have hrow : row.toRow.Fillable := row.fillable hpos
  have hkept : ∀ (srtAll : Argsort (Fin E) α) (i : Fin k), keep i = true →
      (substitute env srtRow srtAll sigmoid p row.toRow scores keep).ids i = row.ids i :=
    fun _ _ hi => substitute_ids_of_keep hi
  refine ⟨fun i hi e he hlt => ?_, fun i hi e he hlt => ?_, fun e he e' he' hlt => ?_⟩
  · obtain ⟨j, hj, hemit⟩ := exists_slot_of_candidate srtRow hrow sigmoid he (Or.inl rfl)
    have hle := substitute_weights_le_iff.mp (h (Argsort.favouring {e}) j i (by rwa [hemit, hkept _ i hi]))
    rwa [offeredWeight_of_keep _ hi, offeredWeight_of_drop _ hj, hemit,
      le_div_iff₀' (scoreMass_pos hpos row.ids i)] at hle
  · obtain ⟨j, hj, hemit⟩ := exists_slot_of_candidate srtRow hrow sigmoid he (Or.inl rfl)
    have hle := substitute_weights_le_iff.mp (h (Argsort.favouring {e}) i j (by rwa [hemit, hkept _ i hi]))
    rwa [offeredWeight_of_keep _ hi, offeredWeight_of_drop _ hj, hemit,
      div_le_iff₀' (scoreMass_pos hpos row.ids i)] at hle
  · -- were `e` offered more, it would be ranked above `e'`, and both would be emitted
    by_contra hmore
    have hrank : fillScores env p row.toRow scores e' < fillScores env p row.toRow scores e := by
      by_contra hle
      exact hmore (hmono (not_lt.mp hle))
    obtain ⟨i, hi, hemit⟩ := exists_slot_of_candidate srtRow hrow sigmoid he' (Or.inr hrank)
    obtain ⟨j, hj, hemit'⟩ := exists_slot_of_candidate srtRow hrow sigmoid he' (Or.inl rfl)
    have hle := substitute_weights_le_iff.mp (h (Argsort.favouring {e'}) i j (by rwa [hemit, hemit']))
    rw [offeredWeight_of_drop _ hi, offeredWeight_of_drop _ hj, hemit, hemit'] at hle
    exact hmore hle

omit [Field α] [IsStrictOrderedRing α] in
/-- Two values are on the same side of a third exactly when it is not strictly between them. -/
theorem same_side_iff {x y z : α} : ((z < x → z ≤ y) ∧ (x < z → y ≤ z)) ↔ ¬ (min x y < z ∧ z < max x y) := by
  rw [min_lt_iff, lt_max_iff]
  constructor
  · rintro ⟨hbelow, habove⟩ ⟨hlo | hlo, hhi | hhi⟩
    · exact absurd (hlo.trans hhi) (lt_irrefl _)
    · exact absurd (hhi.trans_le (habove hlo)) (lt_irrefl _)
    · exact absurd (hlo.trans_le (hbelow hhi)) (lt_irrefl _)
    · exact absurd (hlo.trans hhi) (lt_irrefl _)
  · intro h
    exact ⟨fun hlt => not_lt.mp fun hgt => h ⟨Or.inr hgt, Or.inl hlt⟩,
      fun hlt => not_lt.mp fun hgt => h ⟨Or.inl hlt, Or.inr hgt⟩⟩

omit [IsStrictOrderedRing α] in
/-- No kept expert and no candidate that is eligible change places exactly when the scores stay clear of the gap. -/
theorem clear_iff (hmono : Monotone sigmoid) {x y : α} :
    (∀ e ∈ eligible env p row.toRow scores,
        ((eligible env p row.toRow scores).filter fun e' => scores e < scores e').card < (dropped keep).card →
          (sigmoid (scores e) < x → sigmoid (scores e) ≤ y) ∧ (x < sigmoid (scores e) → y ≤ sigmoid (scores e))) ↔
      (dropped keep).card ≤ ((eligible env p row.toRow scores).filter fun e => max x y ≤ sigmoid (scores e)).card ∨
        ∀ e ∈ eligible env p row.toRow scores, sigmoid (scores e) ≤ min x y ∨ max x y ≤ sigmoid (scores e) := by
  have hbest := @exists_best_between_iff _ _ _ _ _ (eligible env p row.toRow scores) scores
    (fun e => sigmoid (scores e)) (fun i j h => hmono h) (dropped keep).card (min x y) (max x y)
  rw [← not_iff_not] at hbest
  simp only [same_side_iff]
  push Not at hbest ⊢
  refine Iff.trans ⟨fun h e he hcard => h e he hcard, fun h e he hcard => h e he hcard⟩ (hbest.trans ?_)
  rw [imp_iff_or_not, or_comm, not_lt]
  refine or_congr_right (forall₂_congr fun e _ => ?_)
  rw [or_iff_not_imp_left, not_le]

/-- The candidates lie on the right side of a kept expert's share exactly when the eligible ones among them do, and,
where these run out, the masked ones. -/
theorem sides_iff (hpos : ∀ x, 0 < sigmoid x) (hmono : Monotone sigmoid) {x y : α} :
    (∀ e ∈ fillCandidates env p row.toRow scores keep,
        (sigmoid (scores e) < x → sigmoid (fillScores env p row.toRow scores e) ≤ y) ∧
          (x < sigmoid (scores e) → y ≤ sigmoid (fillScores env p row.toRow scores e))) ↔
      ((dropped keep).card ≤ ((eligible env p row.toRow scores).filter fun e => max x y ≤ sigmoid (scores e)).card ∨
        ∀ e ∈ eligible env p row.toRow scores, sigmoid (scores e) ≤ min x y ∨ max x y ≤ sigmoid (scores e)) ∧
      ((eligible env p row.toRow scores).card < (dropped keep).card →
        (sigmoid (finfoMin α) < y → ∀ e ∈ maskedOut env p row.toRow scores, sigmoid (scores e) ≤ x) ∧
          (y < sigmoid (finfoMin α) → ∀ e ∈ maskedOut env p row.toRow scores, x ≤ sigmoid (scores e))) := by
  have hrow : row.toRow.Fillable := row.fillable hpos
  rw [← clear_iff hmono]
  constructor
  · refine fun h => ⟨fun e he hcard => ?_, fun hshort => ⟨fun hover e he => ?_, fun hunder e he => ?_⟩⟩
    · have hside := h e ((mem_fillCandidates_iff hrow).mpr (Or.inl ⟨he, hcard⟩))
      rwa [fillScores_of_eligible he] at hside
    · have hside := (h e ((mem_fillCandidates_iff hrow).mpr (Or.inr ⟨he, hshort⟩))).2
      rw [fillScores_of_maskedOut he] at hside
      exact not_lt.mp fun hlt => absurd hover (not_lt.mpr (hside hlt))
    · have hside := (h e ((mem_fillCandidates_iff hrow).mpr (Or.inr ⟨he, hshort⟩))).1
      rw [fillScores_of_maskedOut he] at hside
      exact not_lt.mp fun hlt => absurd hunder (not_lt.mpr (hside hlt))
  · rintro ⟨hclear, hmasked⟩ e he
    rcases (mem_fillCandidates_iff hrow).mp he with ⟨he, hcard⟩ | ⟨he, hshort⟩
    · rw [fillScores_of_eligible he]
      exact hclear e he hcard
    · rw [fillScores_of_maskedOut he]
      obtain ⟨hover, hunder⟩ := hmasked hshort
      exact ⟨fun hlt => not_lt.mp fun h => absurd hlt (not_lt.mpr (hunder h e he)),
        fun hlt => not_lt.mp fun h => absurd hlt (not_lt.mpr (hover h e he))⟩

/-- The candidates are ranked in the order of their own scores exactly when no masked one that goes out belongs above
an eligible one. -/
theorem among_iff (hpos : ∀ x, 0 < sigmoid x) (hmono : Monotone sigmoid) :
    (∀ e ∈ fillCandidates env p row.toRow scores keep, ∀ e' ∈ fillCandidates env p row.toRow scores keep,
        sigmoid (scores e) < sigmoid (scores e') →
          sigmoid (fillScores env p row.toRow scores e) ≤ sigmoid (fillScores env p row.toRow scores e')) ↔
      ((eligible env p row.toRow scores).card < (dropped keep).card → ∀ e ∈ eligible env p row.toRow scores,
        sigmoid (scores e) = sigmoid (finfoMin α) ∨
          ∀ e' ∈ maskedOut env p row.toRow scores, sigmoid (scores e') ≤ sigmoid (scores e)) := by
  have hrow : row.toRow.Fillable := row.fillable hpos
  have hleast : ∀ e ∈ eligible env p row.toRow scores, sigmoid (finfoMin α) ≤ sigmoid (scores e) :=
    fun e he => hmono (Finset.mem_filter.mp he).2.2.le
  constructor
  · intro h hshort e he
    have hcand : e ∈ fillCandidates env p row.toRow scores keep :=
      (mem_fillCandidates_iff hrow).mpr (Or.inl ⟨he, (Finset.card_filter_le _ _).trans_lt hshort⟩)
    refine or_iff_not_imp_right.mpr fun hhigh => ?_
    push Not at hhigh
    obtain ⟨e', he', hlt⟩ := hhigh
    have hle := h e hcand e' ((mem_fillCandidates_iff hrow).mpr (Or.inr ⟨he', hshort⟩)) hlt
    rw [fillScores_of_eligible he, fillScores_of_maskedOut he'] at hle
    exact le_antisymm hle (hleast e he)
  · intro hfill e he e' he' hlt
    rcases (mem_fillCandidates_iff hrow).mp he with ⟨he, -⟩ | ⟨he, -⟩
    · rcases (mem_fillCandidates_iff hrow).mp he' with ⟨he', -⟩ | ⟨he', hshort⟩
      · rw [fillScores_of_eligible he, fillScores_of_eligible he']
        exact hlt.le
      · rw [fillScores_of_eligible he, fillScores_of_maskedOut he']
        exact ((hfill hshort e he).resolve_right fun h => absurd hlt (not_lt.mpr (h e' he'))).le
    · rcases (mem_fillCandidates_iff hrow).mp he' with ⟨he', -⟩ | ⟨he', -⟩
      · rw [fillScores_of_maskedOut he, fillScores_of_eligible he']
        exact hleast e' he'
      · rw [fillScores_of_maskedOut he, fillScores_of_maskedOut he']

/-- The scales agree exactly when the scores, the pool and the keep mask keep the order. -/
theorem scalesAgree_iff (hpos : ∀ x, 0 < sigmoid x) (hmono : Monotone sigmoid) :
    ScalesAgree env p sigmoid scores keep row.toRow ↔ KeepsOrder env p sigmoid scores keep row.toRow := by
  have hmass : ∀ i : Fin k, 0 < scoreMass sigmoid scores row.ids := fun i => scoreMass_pos hpos row.ids i
  constructor
  · rintro ⟨hbelow, habove, hamong⟩
    have hkept := fun i hi => (sides_iff (y := keptShare sigmoid scores row.ids i) hpos hmono).mp fun e he =>
      ⟨fun hlt => (le_div_iff₀' (hmass i)).mpr (hbelow i hi e he hlt),
        fun hlt => (div_le_iff₀' (hmass i)).mpr (habove i hi e he hlt)⟩
    exact ⟨fun i hi => (hkept i hi).1, fun hshort i hi => (hkept i hi).2 hshort, (among_iff hpos hmono).mp hamong⟩
  · rintro ⟨hclear, hkept, hfill⟩
    have hside := fun i hi => (sides_iff hpos hmono).mpr ⟨hclear i hi, fun hshort => hkept hshort i hi⟩
    exact ⟨fun i hi e he hlt => (le_div_iff₀' (hmass i)).mp ((hside i hi e he).1 hlt),
      fun i hi e he hlt => (div_le_iff₀' (hmass i)).mp ((hside i hi e he).2 hlt), (among_iff hpos hmono).mpr hfill⟩

/-- With enough eligible experts the weights that go out are proportional to the router scores exactly when the
selected experts have a mass of one, or all slots are kept, or none is. -/
theorem substitute_proportional_iff (srtRow : Argsort (Fin k) α) (srtAll : Argsort (Fin E) α)
    (hpos : ∀ x, 0 < sigmoid x) (hroom : (dropped keep).card ≤ (eligible env p row.toRow scores).card) :
    (substitute env srtRow srtAll sigmoid p row.toRow scores keep).Proportional sigmoid scores ↔
      scoreMass sigmoid scores row.ids = 1 ∨ (∀ j, keep j = true) ∨ ∀ j, keep j = false := by
  have hrow : row.toRow.Fillable := row.fillable hpos
  let out := substitute env srtRow srtAll sigmoid p row.toRow scores keep
  let D := max (∑ i, emittedWeight sigmoid row.toRow scores keep out.ids i) (eMinus 9)
  have hD : 0 < D := lt_max_of_lt_right (eMinus_pos 9)
  have hweights : ∀ j, out.weights j = emittedWeight sigmoid row.toRow scores keep out.ids j / D :=
    substitute_weights hrow hroom
  have hkeep : ∀ j, keep j = true → out.weights j =
      sigmoid (scores (out.ids j)) / scoreMass sigmoid scores row.ids / D := fun j hj => by
    have hids : out.ids j = row.ids j := substitute_ids_of_keep hj
    rw [hweights, emittedWeight, if_pos hj, row.renormalised, hids]
  have hdrop : ∀ j, keep j = false → out.weights j = sigmoid (scores (out.ids j)) / D := fun j hj => by
    rw [hweights, emittedWeight, hj, if_neg Bool.false_ne_true]
  show (∀ i j, out.weights i * sigmoid (scores (out.ids j)) = out.weights j * sigmoid (scores (out.ids i))) ↔ _
  constructor
  · intro h
    by_contra hmixed
    push Not at hmixed
    obtain ⟨hone, ⟨j, hj⟩, i, hi⟩ := hmixed
    replace hj := eq_false_of_ne_true hj
    replace hi := eq_true_of_ne_false hi
    -- a kept slot and a dropped one are on different scales
    have hmass : 0 < scoreMass sigmoid scores row.ids := scoreMass_pos hpos row.ids i
    have hij := h i j
    rw [hkeep i hi, hdrop j hj] at hij
    have hscore : 0 < sigmoid (scores (out.ids i)) * sigmoid (scores (out.ids j)) := mul_pos (hpos _) (hpos _)
    apply hone
    field_simp at hij
    refine mul_left_cancel₀ hscore.ne' ?_
    rw [mul_one, mul_right_comm]
    exact hij.symm
  · rintro (hone | hall | hnone) i j
    · have hsame : ∀ j, out.weights j = sigmoid (scores (out.ids j)) / D := fun j => by
        cases hj : keep j with
        | true => rw [hkeep j hj, hone, div_one]
        | false => exact hdrop j hj
      rw [hsame, hsame]
      ring
    · rw [hkeep i (hall i), hkeep j (hall j)]
      ring
    · rw [hdrop i (hnone i), hdrop j (hnone j)]
      ring

omit [IsStrictOrderedRing α] in
variable (srtRow srtAll) in
/-- What is offered to a slot, against the router score of the expert that goes out in it. -/
theorem offeredWeight_mul_score (hmass : scoreMass sigmoid scores row.ids ≠ 0) (hrow : row.toRow.Fillable)
    (h : OneScale env p sigmoid scores keep row.toRow) (i j : Fin k) :
    offeredWeight env p sigmoid row.toRow scores keep
        (substitute env srtRow srtAll sigmoid p row.toRow scores keep).ids j * sigmoid (scores (row.ids i)) =
      sigmoid (finfoMin α) * sigmoid (scores
        ((substitute env srtRow srtAll sigmoid p row.toRow scores keep).ids j)) := by
  have hnamed : ∀ j, row.ids j ∈ maskedOut env p row.toRow scores := fun j => mem_maskedOut.mpr (Or.inl ⟨j, rfl⟩)
  cases hj : keep j with
  | true =>
    have hids : (substitute env srtRow srtAll sigmoid p row.toRow scores keep).ids j = row.ids j :=
      substitute_ids_of_keep hj
    rw [offeredWeight_of_keep _ hj, hids, h.masked _ (hnamed i) _ (hnamed j), h.kept ⟨j, hj⟩ _ (hnamed j)]
    field_simp
  | false =>
    rw [offeredWeight_of_drop _ hj]
    have hcandidate := substitute_mem_fillCandidates env srtRow srtAll sigmoid p scores hrow hj
    rcases (mem_fillCandidates_iff hrow).mp hcandidate with ⟨he, -⟩ | ⟨he, -⟩
    · rw [fillScores_of_eligible he, h.fill ⟨_, he⟩ _ (hnamed i), mul_comm]
    · rw [fillScores_of_maskedOut he, h.masked _ (hnamed i) _ he]

/-- Proportional weights are offered ones that are proportional. -/
theorem substitute_proportional_offered :
    (substitute env srtRow srtAll sigmoid p row.toRow scores keep).Proportional sigmoid scores ↔ ∀ i j,
      offeredWeight env p sigmoid row.toRow scores keep
          (substitute env srtRow srtAll sigmoid p row.toRow scores keep).ids i *
        sigmoid (scores ((substitute env srtRow srtAll sigmoid p row.toRow scores keep).ids j)) =
      offeredWeight env p sigmoid row.toRow scores keep
          (substitute env srtRow srtAll sigmoid p row.toRow scores keep).ids j *
        sigmoid (scores ((substitute env srtRow srtAll sigmoid p row.toRow scores keep).ids i)) := by
  refine forall₂_congr fun i j => ?_
  rw [substitute_weights_eq, substitute_weights_eq, div_mul_eq_mul_div, div_mul_eq_mul_div]
  exact div_left_inj' (lt_max_of_lt_right (eMinus_pos 9)).ne'

omit [IsStrictOrderedRing α] in
variable (sigmoid) in
/-- Two masked experts go out together under some way to break ties, where nothing else does. -/
theorem exists_slots_of_maskedOut (srtRow : Argsort (Fin k) α) (hrow : row.toRow.Fillable)
    (hnone : eligible env p row.toRow scores = ∅) (htwo : 2 ≤ (dropped keep).card) {e e' : Fin E}
    (he : e ∈ maskedOut env p row.toRow scores) (he' : e' ∈ maskedOut env p row.toRow scores) :
    ∃ srtAll : Argsort (Fin E) α, ∃ i j, (keep i = false ∧ keep j = false) ∧
      (substitute env srtRow srtAll sigmoid p row.toRow scores keep).ids i = e ∧
      (substitute env srtRow srtAll sigmoid p row.toRow scores keep).ids j = e' := by
  have hrank : ∀ b ∈ ({e, e'} : Finset (Fin E)),
      (Argsort.favouring {e, e'}).rank (fillScores env p row.toRow scores) b < (dropped keep).card := by
    intro b hb
    have hmasked : b ∈ maskedOut env p row.toRow scores := by
      rcases Finset.mem_insert.mp hb with rfl | hb
      · exact he
      · exact Finset.mem_singleton.mp hb ▸ he'
    have hle := Argsort.rank_favouring_le (fillScores env p row.toRow scores) hb
    rw [fillScores_of_maskedOut hmasked, filter_finfoMin_lt, hnone, Finset.card_empty,
      Finset.card_erase_of_mem hb] at hle
    have hpair : ({e, e'} : Finset (Fin E)).card ≤ 2 := Finset.card_le_two
    omega
  obtain ⟨i, hi, hei⟩ := exists_slot_of_rank_lt srtRow hrow sigmoid (hrank e (Finset.mem_insert_self e {e'}))
  obtain ⟨j, hj, hej⟩ := exists_slot_of_rank_lt srtRow hrow sigmoid
    (hrank e' (Finset.mem_insert_of_mem (Finset.mem_singleton_self e')))
  exact ⟨Argsort.favouring {e, e'}, i, j, ⟨hi, hj⟩, hei, hej⟩

/-- Where the eligible experts run out, the weights that go out are proportional to the router scores, however ties are
broken, exactly when the row has one slot or the masked experts are on the scale of everything else. -/
theorem substitute_proportional_short_iff (srtRow : Argsort (Fin k) α) (hpos : ∀ x, 0 < sigmoid x)
    (hshort : (eligible env p row.toRow scores).card < (dropped keep).card) :
    (∀ srtAll : Argsort (Fin E) α,
        (substitute env srtRow srtAll sigmoid p row.toRow scores keep).Proportional sigmoid scores) ↔
      k = 1 ∨ OneScale env p sigmoid scores keep row.toRow := by
  have hrow : row.toRow.Fillable := row.fillable hpos
  simp only [substitute_proportional_offered]
  constructor
  · refine fun h => or_iff_not_imp_left.mpr fun hk => ?_
    -- any masked expert may go out, in a slot with the sigmoid of the least float
    have hslot : ∀ e ∈ maskedOut env p row.toRow scores, e ∈ fillCandidates env p row.toRow scores keep :=
      fun e he => (mem_fillCandidates_iff hrow).mpr (Or.inr ⟨he, hshort⟩)
    have hkept : (∃ i, keep i = true) → ∀ e ∈ maskedOut env p row.toRow scores,
        sigmoid (scores e) = scoreMass sigmoid scores row.ids * sigmoid (finfoMin α) := by
      rintro ⟨i, hi⟩ e he
      obtain ⟨j, hj, hemit⟩ := exists_slot_of_candidate srtRow hrow sigmoid (hslot e he) (Or.inl rfl)
      have hij := h (Argsort.favouring {e}) i j
      rw [offeredWeight_of_keep _ hi, offeredWeight_of_drop _ hj, hemit, substitute_ids_of_keep hi,
        fillScores_of_maskedOut he] at hij
      have hmass : scoreMass sigmoid scores row.ids ≠ 0 := (scoreMass_pos hpos row.ids i).ne'
      have hscore := (hpos (scores (row.ids i))).ne'
      field_simp at hij
      exact hij
    have hfill : (eligible env p row.toRow scores).Nonempty → ∀ e ∈ maskedOut env p row.toRow scores,
        sigmoid (scores e) = sigmoid (finfoMin α) := by
      rintro ⟨b, hb⟩ e he
      have hlarger : fillScores env p row.toRow scores e < fillScores env p row.toRow scores b := by
        rw [fillScores_of_maskedOut he]
        exact fillScores_lt_iff.mpr hb
      obtain ⟨i, hi, hemit⟩ := exists_slot_of_candidate srtRow hrow sigmoid (hslot e he) (Or.inr hlarger)
      obtain ⟨j, hj, hemit'⟩ := exists_slot_of_candidate srtRow hrow sigmoid (hslot e he) (Or.inl rfl)
      have hij := h (Argsort.favouring {e}) i j
      rw [offeredWeight_of_drop _ hi, offeredWeight_of_drop _ hj, hemit, hemit', fillScores_of_maskedOut he,
        fillScores_of_eligible hb, mul_comm] at hij
      exact mul_right_cancel₀ (hpos _).ne' hij
    refine ⟨hkept, hfill, fun e he e' he' => ?_⟩
    by_cases hany : ∃ i, keep i = true
    · rw [hkept hany e he, hkept hany e' he']
    · by_cases helig : (eligible env p row.toRow scores).Nonempty
      · rw [hfill helig e he, hfill helig e' he']
      · have hall : (dropped keep).card = k := by
          rw [dropped, Finset.filter_true_of_mem fun j _ => eq_false_of_ne_true fun hj => hany ⟨j, hj⟩]
          simp
        have htwo : 2 ≤ (dropped keep).card := by omega
        have hnone := Finset.not_nonempty_iff_eq_empty.mp helig
        obtain ⟨srtAll, i, j, ⟨hi, hj⟩, hemit, hemit'⟩ :=
          exists_slots_of_maskedOut sigmoid srtRow hrow hnone htwo he he'
        have hij := h srtAll i j
        rw [offeredWeight_of_drop _ hi, offeredWeight_of_drop _ hj, hemit, hemit', fillScores_of_maskedOut he,
          fillScores_of_maskedOut he'] at hij
        exact (mul_left_cancel₀ (hpos _).ne' hij).symm
  · rintro (rfl | hone) srtAll i j
    · rw [Subsingleton.elim i j]
    · have hmass : scoreMass sigmoid scores row.ids ≠ 0 := (scoreMass_pos hpos row.ids i).ne'
      have hi := offeredWeight_mul_score srtRow srtAll hmass hrow hone i i
      have hj := offeredWeight_mul_score srtRow srtAll hmass hrow hone i j
      refine mul_right_cancel₀ (hpos (scores (row.ids i))).ne' ?_
      rw [mul_right_comm, hi, mul_right_comm _ _ (sigmoid (scores (row.ids i))), hj, mul_right_comm]

end Order

/-- **The router's preference.** For every row of renormalised router scores, every keep mask and every pool, the row
that goes out is in the order of the router scores, however ties are broken, exactly when the scores, the pool and the
keep mask keep the order. With enough eligible experts its weights are proportional to the router scores exactly when the
scores that came in had a mass of one, or nothing is mixed; where these run out, when there is one slot or one scale. -/
theorem substitute_preferring_iff [IsStrictOrderedRing α] (env : Env α) (srtRow : Argsort (Fin k) α) (sigmoid : α → α)
    (hpos : ∀ x, 0 < sigmoid x) (hmono : Monotone sigmoid) (p : Placement E) (scores : Fin E → α)
    (row : ScoredRow E k sigmoid scores) (keep : Fin k → Bool) :
    ((∀ srtAll : Argsort (Fin E) α,
        (substitute env srtRow srtAll sigmoid p row.toRow scores keep).Preferring sigmoid scores) ↔
      KeepsOrder env p sigmoid scores keep row.toRow) ∧
    ((dropped keep).card ≤ (eligible env p row.toRow scores).card → ∀ srtAll : Argsort (Fin E) α,
      ((substitute env srtRow srtAll sigmoid p row.toRow scores keep).Proportional sigmoid scores ↔
        scoreMass sigmoid scores row.ids = 1 ∨ (∀ j, keep j = true) ∨ ∀ j, keep j = false)) ∧
    ((eligible env p row.toRow scores).card < (dropped keep).card →
      ((∀ srtAll : Argsort (Fin E) α,
          (substitute env srtRow srtAll sigmoid p row.toRow scores keep).Proportional sigmoid scores) ↔
        k = 1 ∨ OneScale env p sigmoid scores keep row.toRow)) := by
  refine ⟨?_, fun hroom srtAll => substitute_proportional_iff srtRow srtAll hpos hroom, fun hshort => ?_⟩
  · rw [← scalesAgree_iff hpos hmono]
    exact ⟨fun h => scalesAgree_of_preferring srtRow hpos hmono h, fun h srtAll => substitute_preferring hpos h⟩
  · exact substitute_proportional_short_iff srtRow hpos hshort

/-! ## Two scales in one row -/

/-- A strictly increasing curve from 0 to 1 through 1/2. -/
def softStep (x : ℚ) : ℚ := if x ≤ 0 then 1 / (2 * (1 - x)) else 1 - 1 / (2 * (1 + x))

theorem softStep_pos (x : ℚ) : 0 < softStep x := by
  unfold softStep
  split_ifs with h
  · have hden : 0 < 2 * (1 - x) := by linarith
    positivity
  · have hden : 1 < 2 * (1 + x) := by linarith
    have hlt := (div_lt_one (by linarith)).mpr hden
    linarith

theorem softStep_strictMono : StrictMono softStep := by
  intro x y hxy
  unfold softStep
  split_ifs with hx hy hy
  · have hden : 0 < 2 * (1 - y) := by linarith
    exact one_div_lt_one_div_of_lt hden (by linarith)
  · have hleft : 1 / (2 * (1 - x)) ≤ 1 / 2 := one_div_le_one_div_of_le (by norm_num) (by linarith)
    have hright : 1 / (2 * (1 + y)) < 1 / 2 := one_div_lt_one_div_of_lt (by norm_num) (by linarith)
    linarith
  · linarith
  · have hden : 0 < 2 * (1 + x) := by linarith
    have hlt : 1 / (2 * (1 + y)) < 1 / (2 * (1 + x)) := one_div_lt_one_div_of_lt hden (by linarith)
    linarith

/-- Two slots that name the experts 0 and 1, with their router scores renormalised. -/
def topPair (scores : Fin 4 → ℚ) : ScoredRow 4 2 softStep scores where
  ids := Fin.castAdd 2
  weights j := softStep (scores (Fin.castAdd 2 j)) / scoreMass softStep scores (Fin.castAdd 2)
  distinct := by decide
  renormalised _ := rfl

/-- A pool expert of a low score fits below the kept one. -/
theorem substitute_preferring_low :
    (substitute {} Argsort.stable Argsort.stable softStep middleOnGpu (topPair ![3, 1, -1, 0]).toRow ![3, 1, -1, 0]
      ![true, false]).Preferring softStep ![3, 1, -1, 0] := by
  refine (substitute_preferring_iff {} Argsort.stable softStep softStep_pos softStep_strictMono.monotone middleOnGpu
    ![3, 1, -1, 0] (topPair ![3, 1, -1, 0]) ![true, false]).1.mpr ⟨?_, ?_, ?_⟩ Argsort.stable
  · decide +kernel
  · decide +kernel
  · decide +kernel

/-- The kept expert scores 7/8 and the fill 2/3, but the kept one goes out with the smaller weight: its score was
divided by the mass 13/8 of the row that came in. -/
theorem substitute_inverts_pair :
    ¬ (substitute {} Argsort.stable Argsort.stable softStep middleOnGpu (topPair ![3, 1, 1 / 2, 0]).toRow
      ![3, 1, 1 / 2, 0] ![true, false]).Preferring softStep ![3, 1, 1 / 2, 0] := by
  intro h
  have hpair := h 1 0
  revert hpair
  decide +kernel

end ExpertServe
