import ExpertServe.Lib.Rank
import Mathlib.Algebra.BigOperators.Fin
import Mathlib.Algebra.Order.BigOperators.Group.List

/-!
# The largest values of a vector

`sortDesc f` lists the values of `f`, largest first, and `topSum f k` adds up the first `k` of them.

* `sortDesc_eq`: any way to break ties lists the same values;
* `sortDesc_comp_perm`: so does any order of the vector;
* `topSum_mono`: the sums of non-negative values grow with `k`.
-/

namespace ExpertServe.Lib

variable {n : ℕ} {α : Type*} [LinearOrder α]

/-- The values of a vector, largest first. -/
def sortDesc (f : Fin n → α) : List α := (Argsort.stable.order f).map f

theorem sortDesc_sorted (f : Fin n → α) : (sortDesc f).Pairwise (· ≥ ·) :=
  List.pairwise_map.mpr (Argsort.stable.order_sorted f)

theorem sortDesc_perm (f : Fin n → α) : (sortDesc f).Perm ((List.finRange n).map f) :=
  (Argsort.stable.order_perm f).map f

@[simp] theorem length_sortDesc (f : Fin n → α) : (sortDesc f).length = n := by
  rw [sortDesc, List.length_map, Argsort.length_order]

/-- Two lists of the same values that both go down are the same list. -/
theorem eq_sortDesc {f : Fin n → α} {l : List α} (hperm : l.Perm ((List.finRange n).map f))
    (hsorted : l.Pairwise (· ≥ ·)) : l = sortDesc f := by
  refine List.Perm.eq_of_pairwise (fun a b _ _ hab hba => le_antisymm hba hab) hsorted (sortDesc_sorted f) ?_
  exact hperm.trans (sortDesc_perm f).symm

/-- Any way to break ties lists the same values. -/
theorem sortDesc_eq (srt : Argsort (Fin n) α) (f : Fin n → α) : (srt.order f).map f = sortDesc f :=
  eq_sortDesc ((srt.order_perm f).map f) (List.pairwise_map.mpr (srt.order_sorted f))

/-- The values do not depend on the order of the vector. -/
theorem sortDesc_comp_perm (f : Fin n → α) (σ : Equiv.Perm (Fin n)) : sortDesc (f ∘ σ) = sortDesc f := by
  refine eq_sortDesc ((sortDesc_perm _).trans ?_) (sortDesc_sorted _)
  rw [← List.map_map]
  refine List.Perm.map f ?_
  rw [List.perm_ext_iff_of_nodup ((List.nodup_finRange n).map σ.injective) (List.nodup_finRange n)]
  intro i
  simp only [List.mem_map, List.mem_finRange, true_and, iff_true]
  exact ⟨σ.symm i, σ.apply_symm_apply i⟩

section Sum

variable [AddCommMonoid α]

/-- The sum of the `k` largest values. -/
def topSum (f : Fin n → α) (k : ℕ) : α := ((sortDesc f).take k).sum

/-- The sum of all the values is the sum of the vector. -/
theorem sum_sortDesc (f : Fin n → α) : (sortDesc f).sum = ∑ i, f i := by
  rw [(sortDesc_perm f).sum_eq, Fin.sum_univ_def]

/-- Of non-negative values, more of the largest have at least the sum. -/
theorem topSum_mono [IsOrderedAddMonoid α] {f : Fin n → α} (h0 : ∀ i, 0 ≤ f i) {j k : ℕ} (h : j ≤ k) :
    topSum f j ≤ topSum f k := by
  refine List.Sublist.sum_le_sum (List.take_sublist_take_left h) fun a ha => ?_
  obtain ⟨i, -, rfl⟩ := List.mem_map.mp (List.mem_of_mem_take ha)
  exact h0 i

end Sum

end ExpertServe.Lib
