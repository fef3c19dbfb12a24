import ExpertServe.Forward.SafeRouting
import Mathlib.Algebra.BigOperators.Field
import Mathlib.Tactic.Ring

/-!
# What a substitution does to a row

The fill of `_kt_topk_experiment` for any keep mask, contiguous or not: which ids the dropped slots receive, and
what becomes of the weights when both groups are normalised together.

* `emittedWeight`: the weight of a slot before it is normalised;
* `substitute_transfers`: kept slots keep their ids and, up to one common factor, their weights, dropped slots receive
  the best of the pool, and the row sums to one exactly when its mass reaches the floor of the normalisation.
-/

namespace ExpertServe

open Lib

variable {E k : ℕ} {α : Type*} [Field α] [LinearOrder α]

/-- A row of distinct ids with non-negative weights. -/
structure WeightedRow (E k : ℕ) (α : Type*) [Field α] [LinearOrder α] extends Row E k α where
  distinct : Function.Injective ids
  nonneg : ∀ j, 0 ≤ weights j

/-- The weight of a slot before it is normalised: its own where it is kept, and the sigmoid of the score of the
expert it receives where it is dropped. -/
def emittedWeight (sigmoid : α → α) (row : Row E k α) (scores : Fin E → α) (keep : Fin k → Bool)
    (ids : Fin k → Fin E) (j : Fin k) : α :=
  if keep j then row.weights j else sigmoid (scores (ids j))

/-- The weight routing computes for a slot before it normalises: a dropped slot has the sigmoid of the score its
expert is ranked by. -/
def offeredWeight (env : Env α) (p : Placement E) (sigmoid : α → α) (row : Row E k α) (scores : Fin E → α)
    (keep : Fin k → Bool) (ids : Fin k → Fin E) (j : Fin k) : α :=
  if keep j then row.weights j else sigmoid (fillScores env p row scores (ids j))

/-- What a substitution owes to the row it starts from. Every slot has its own weight, or that of the expert it
receives, over one mass. -/
structure Transfers (env : Env α) (p : Placement E) (sigmoid : α → α) (scores : Fin E → α) (keep : Fin k → Bool)
    (row out : Row E k α) : Prop where
  keptIds : ∀ j, keep j = true → out.ids j = row.ids j
  weights : ∀ j, out.weights j = emittedWeight sigmoid row scores keep out.ids j /
    max (∑ i, emittedWeight sigmoid row scores keep out.ids i) (eMinus 9)
  ratios : ∀ i j, keep i = true → keep j = true → out.weights i * row.weights j = out.weights j * row.weights i
  fillDistinct : ∀ i j, keep i = false → keep j = false → out.ids i = out.ids j → i = j
  fillPool : ∀ j, keep j = false → out.ids j ∈ p.fillVec env ∧ ∀ i, row.ids i ≠ out.ids j
  fillBest : ∀ j, keep j = false → ∀ e ∈ p.fillVec env, (∀ i, row.ids i ≠ e) →
    (∀ i, keep i = false → out.ids i ≠ e) → scores e ≤ scores (out.ids j)
  nonneg : ∀ j, 0 ≤ out.weights j
  sum : ∑ j, out.weights j = 1 ↔ eMinus 9 ≤ ∑ j, emittedWeight sigmoid row scores keep out.ids j

section Ids

variable {env : Env α} {srtRow : Argsort (Fin k) α} {srtAll : Argsort (Fin E) α} {sigmoid : α → α} {p : Placement E}
  {row : Row E k α} {scores : Fin E → α} {keep : Fin k → Bool}

omit [LinearOrder α] in
/-- An expert of the pool that the row does not name is ranked by its own score. -/
theorem fillScores_of_pool {e : Fin E} (hpool : e ∈ p.fillVec env) (hrow : ∀ i, row.ids i ≠ e) :
    fillScores env p row scores e = scores e := by
  unfold fillScores
  rw [if_neg (by simpa using hrow), if_pos hpool]

/-- **The dropped slots receive the best of the pool**: whoever is left out scores no higher. -/
theorem substitute_best (hrow : row.Fillable) (h : (dropped keep).card ≤ (eligible env p row scores).card)
    {j : Fin k} (hj : keep j = false) {e : Fin E} (hpool : e ∈ p.fillVec env) (hnew : ∀ i, row.ids i ≠ e)
    (hout : ∀ i, keep i = false → (substitute env srtRow srtAll sigmoid p row scores keep).ids i ≠ e) :
    scores e ≤ scores ((substitute env srtRow srtAll sigmoid p row scores keep).ids j) := by
  let s := fillScores env p row scores
  let b := (substitute env srtRow srtAll sigmoid p row scores keep).ids j
  have hb : b ∈ eligible env p row scores := substitute_eligible _ _ _ hrow h hj
  -- the expert left out comes behind every fill rank that is handed out
  have hbehind : srtAll.rank s b ≤ srtAll.rank s e := by
    by_contra hlt
    push Not at hlt
    have hk : srtAll.rank s e < (dropped keep).card := by
      apply hlt.trans
      rw [rank_substitute_ids hrow hj]
      exact (drop_rank_lt_iff hrow).mpr hj
    have hslots : (dropped keep).card ≤ k := by simpa using (dropped keep).card_le_univ
    obtain ⟨i, hi⟩ := srtRow.exists_rank_eq (dropWeights keep row) (hk.trans_le hslots)
    have hdrop : keep i = false := (drop_rank_lt_iff hrow).mp (hi.trans_lt hk)
    exact hout i hdrop ((substitute_ids_eq_iff hrow hdrop).mpr hi.symm)
  have hs : s e ≤ s b := by
    by_contra hlt
    push Not at hlt
    have hcard := (srtAll.rank_lt_card_iff s (s b) e).mpr hlt
    have hself := (srtAll.rank_lt_card_iff s (s b) b).not.mpr (lt_irrefl _)
    omega
  have hse : s e = scores e := fillScores_of_pool hpool hnew
  obtain ⟨hbpool, hbnew, -⟩ := Finset.mem_filter.mp hb
  have hsb : s b = scores b := fillScores_of_pool hbpool hbnew
  rwa [hse, hsb] at hs

end Ids

section Weights

variable {env : Env α} {srtRow : Argsort (Fin k) α} {srtAll : Argsort (Fin E) α} {sigmoid : α → α} {p : Placement E}
  {row : Row E k α} {scores : Fin E → α} {keep : Fin k → Bool}

/-- Every slot has its offered weight over the mass of the row. -/
theorem substitute_weights_eq (j : Fin k) :
    (substitute env srtRow srtAll sigmoid p row scores keep).weights j =
      offeredWeight env p sigmoid row scores keep (substitute env srtRow srtAll sigmoid p row scores keep).ids j /
        max (∑ i, offeredWeight env p sigmoid row scores keep
          (substitute env srtRow srtAll sigmoid p row scores keep).ids i) (eMinus 9) := by
  let fill := fun j =>
    (((srtAll.order (fillScores env p row scores)).take k)[srtRow.rank (dropWeights keep row) j]?).getD
      (row.ids j)
  have hnew : ∀ j, offeredWeight env p sigmoid row scores keep
      (substitute env srtRow srtAll sigmoid p row scores keep).ids j =
        if keep j then row.weights j else sigmoid (fillScores env p row scores (fill j)) := by
    intro j
    show (if keep j then row.weights j else
      sigmoid (fillScores env p row scores (if keep j then row.ids j else fill j))) = _
    cases keep j <;> rfl
  simp only [hnew]
  rfl

/-- With enough eligible experts every slot has its emitted weight over the mass of the row. -/
theorem substitute_weights (hrow : row.Fillable) (h : (dropped keep).card ≤ (eligible env p row scores).card)
    (j : Fin k) :
    (substitute env srtRow srtAll sigmoid p row scores keep).weights j =
      emittedWeight sigmoid row scores keep (substitute env srtRow srtAll sigmoid p row scores keep).ids j /
        max (∑ i, emittedWeight sigmoid row scores keep (substitute env srtRow srtAll sigmoid p row scores keep).ids i)
          (eMinus 9) := by
  let out := substitute env srtRow srtAll sigmoid p row scores keep
  have hnew : ∀ j, offeredWeight env p sigmoid row scores keep out.ids j =
      emittedWeight sigmoid row scores keep out.ids j := by
    intro j
    unfold offeredWeight emittedWeight
    cases hj : keep j with
    | true => rfl
    | false =>
      have helig : out.ids j ∈ eligible env p row scores := substitute_eligible _ _ _ hrow h hj
      obtain ⟨hpool, hfresh, -⟩ := Finset.mem_filter.mp helig
      rw [fillScores_of_pool hpool hfresh]
  rw [substitute_weights_eq]
  simp only [out] at hnew
  simp only [hnew]

variable [IsStrictOrderedRing α]

/-- Normalising by the mass, or by a floor it does not reach, gives a sum of one exactly when it reaches it. -/
theorem sum_normalised_eq_one_iff {w : Fin k → α} :
    ∑ j, w j / max (∑ i, w i) (eMinus 9) = 1 ↔ eMinus 9 ≤ ∑ i, w i := by
  have hpos : (0 : α) < max (∑ i, w i) (eMinus 9) := lt_max_of_lt_right (eMinus_pos 9)
  rw [← Finset.sum_div, div_eq_one_iff_eq hpos.ne']
  constructor
  · intro h
    rw [h]
    exact le_max_right _ _
  · intro h
    exact (max_eq_left h).symm

end Weights

variable [IsStrictOrderedRing α]

theorem WeightedRow.fillable (row : WeightedRow E k α) : row.toRow.Fillable :=
  ⟨row.distinct, fun j => finfoMin_neg.trans_le (row.nonneg j)⟩

/-- **Weight transfer.** For every row of non-negative weights and every keep mask, when no more slots are dropped
than the pool has experts that the row does not name and that score above the least float. The keep mask that
routing decides on is one of them. -/
theorem substitute_transfers (env : Env α) (srtRow : Argsort (Fin k) α) (srtAll : Argsort (Fin E) α) (sigmoid : α → α)
    (hsigmoid : ∀ x, 0 ≤ sigmoid x) (p : Placement E) (row : WeightedRow E k α) (scores : Fin E → α)
    (keep : Fin k → Bool) (hroom : (dropped keep).card ≤ (eligible env p row.toRow scores).card) :
    Transfers env p sigmoid scores keep row.toRow (substitute env srtRow srtAll sigmoid p row.toRow scores keep) ∧
      ∀ K, keepMask env srtRow p row.toRow K = keep → safeRoute env srtRow srtAll sigmoid p row.toRow scores K =
        substitute env srtRow srtAll sigmoid p row.toRow scores keep := by
  have hrow : row.toRow.Fillable := row.fillable
  let out := substitute env srtRow srtAll sigmoid p row.toRow scores keep
  have hweights : ∀ j, out.weights j = emittedWeight sigmoid row.toRow scores keep out.ids j /
      max (∑ i, emittedWeight sigmoid row.toRow scores keep out.ids i) (eMinus 9) := substitute_weights hrow hroom
  have hkept : ∀ j, keep j = true → emittedWeight sigmoid row.toRow scores keep out.ids j = row.weights j := by
    intro j hj
    unfold emittedWeight
    rw [hj, if_pos rfl]
  have hemitted : ∀ j, 0 ≤ emittedWeight sigmoid row.toRow scores keep out.ids j := by
    intro j
    unfold emittedWeight
    split
    · exact row.nonneg j
    · exact hsigmoid _
  refine ⟨⟨fun j hj => substitute_ids_of_keep hj, hweights, ?_, ?_, ?_, ?_, ?_, ?_⟩, ?_⟩
  · intro i j hi hj
    show out.weights i * row.weights j = out.weights j * row.weights i
    rw [hweights, hweights, hkept i hi, hkept j hj]
    ring
  · intro i j hi hj hij
    exact substitute_ids_inj_of_drop hrow hi hj hij
  · intro j hj
    have helig := substitute_eligible srtRow srtAll sigmoid hrow hroom hj
    have hmem := Finset.mem_filter.mp helig
    exact ⟨hmem.1, hmem.2.1⟩
  · intro j hj e hpool hnew hout
    exact substitute_best hrow hroom hj hpool hnew hout
  · intro j
    show 0 ≤ out.weights j
    rw [hweights]
    have hpos : (0 : α) < max (∑ i, emittedWeight sigmoid row.toRow scores keep out.ids i) (eMinus 9) :=
      lt_max_of_lt_right (eMinus_pos 9)
    exact div_nonneg (hemitted j) hpos.le
  · show ∑ j, out.weights j = 1 ↔ _
    simp only [hweights]
    exact sum_normalised_eq_one_iff
  · rintro K rfl
    rfl

/-- Two slots that name the experts 0 and 1, with the weights given. -/
def pairRow (w : ℚ) (hw : 0 ≤ w) : WeightedRow 4 2 ℚ where
  ids j := ⟨j, by omega⟩
  weights _ := w
  distinct i j h := Fin.ext (by simpa using congrArg Fin.val h)
  nonneg _ := hw

/-- The experts 1 and 2 on the GPU, the others in RAM. -/
def middleOnGpu : Placement 4 where
  gpuExpertsMaskCuda := Finset.univ.filter fun e => e.val = 1 ∨ e.val = 2
  ramExpertsMaskCuda := Finset.univ.filter fun e => e.val = 0 ∨ e.val = 3
  pfLanded := ∅
  pfIssued := false

theorem substitute_transfers_pair :
    Transfers ({} : Env ℚ) middleOnGpu sigmoidZero (fun _ => 0) (fun j => j == 0) (pairRow (1 / 2) (by norm_num)).toRow
      (substitute {} Argsort.stable Argsort.stable sigmoidZero middleOnGpu (pairRow (1 / 2) (by norm_num)).toRow
        (fun _ => 0) fun j => j == 0) := by
  refine (substitute_transfers ({} : Env ℚ) Argsort.stable Argsort.stable sigmoidZero ?_ middleOnGpu
    (pairRow (1 / 2) (by norm_num)) (fun _ => 0) (fun j => j == 0) ?_).1
  · intro x
    unfold sigmoidZero
    split <;> norm_num
  · decide +kernel

/-- A row without mass stays without mass: the floor of the normalisation keeps it from summing to one. And a
pool expert whose score is the least float ties with those that may not be used: expert 0, which the row names
already and which is not in the pool, is handed to a dropped slot. -/
theorem zero_mass_and_least_score :
    (∑ j, (safeRoute {} Argsort.stable Argsort.stable sigmoidZero middleOnGpu (pairRow 0 le_rfl).toRow
      (fun _ => 0) 2).weights j ≠ 1) ∧
    (dropped (keepMask {} Argsort.stable middleOnGpu (pairRow (1 / 2) (by norm_num)).toRow 1)).card ≤
      ((middleOnGpu.fillVec ({} : Env ℚ)).filter fun e => ∀ j, (pairRow (1 / 2) (by norm_num)).ids j ≠ e).card ∧
    (safeRoute {} Argsort.stable Argsort.stable sigmoidZero middleOnGpu (pairRow (1 / 2) (by norm_num)).toRow
      (fun _ => finfoMin ℚ) 1).ids 1 ∉ middleOnGpu.fillVec ({} : Env ℚ) := by
  refine ⟨by decide +kernel, by decide +kernel, by decide +kernel⟩

end ExpertServe
