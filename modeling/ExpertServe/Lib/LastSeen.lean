import Mathlib.Algebra.Order.Group.Int
import Mathlib.Data.List.Induction

/-!
# When something was last seen

The elements of a list are numbered from one, in the order in which they came.

* `lastSeen`: the number of the last element with a property, `-1` if none has it; `lastSeen_concat`;
* `lastSeen_within_iff`: it lies a bounded way back exactly if one of the last elements has the property.
-/

namespace ExpertServe.Lib

variable {β : Type*} (p : β → Prop) [DecidablePred p]

def lastSeen (l : List β) : ℤ :=
  ((l.reverse.findIdx? fun b => p b).map fun i : ℕ => (l.length : ℤ) - i).getD (-1)

theorem lastSeen_nil : lastSeen p [] = -1 := rfl

theorem lastSeen_concat (l : List β) (b : β) :
    lastSeen p (l ++ [b]) = if p b then (l.length : ℤ) + 1 else lastSeen p l := by
  unfold lastSeen
  rw [List.reverse_append, List.reverse_singleton, List.singleton_append, List.findIdx?_cons, List.length_append,
    List.length_singleton]
  by_cases hb : p b
  · simp [hb]
  · cases l.reverse.findIdx? fun b => p b with
    | none => simp [hb]
    | some i =>
      simp only [hb, decide_false, Bool.false_eq_true, if_false, Option.map_some, Option.getD_some]
      omega

theorem lastSeen_le (l : List β) : lastSeen p l ≤ l.length := by
  induction l using List.reverseRecOn with
  | nil => simp [lastSeen_nil]
  | append_singleton l b ih =>
    rw [lastSeen_concat, List.length_append, List.length_singleton]
    split <;> omega

/-- The property was last seen at most `n` elements before the end exactly if one of the last `n + 1` has it. -/
theorem lastSeen_within_iff (l : List β) (n : ℕ) :
    0 ≤ lastSeen p l ∧ (l.length : ℤ) - lastSeen p l ≤ n ↔ ∃ b ∈ l.drop (l.length - (n + 1)), p b := by
  induction l using List.reverseRecOn generalizing n with
  | nil => simp [lastSeen_nil]
  | append_singleton l b ih =>
    have hle := lastSeen_le p l
    have hdrop : (l ++ [b]).drop ((l ++ [b]).length - (n + 1)) = l.drop (l.length - n) ++ [b] := by
      rw [List.length_append, List.length_singleton, Nat.add_sub_add_right,
        List.drop_append_of_le_length (Nat.sub_le ..)]
    rw [hdrop, lastSeen_concat, List.length_append, List.length_singleton]
    by_cases hb : p b
    · rw [if_pos hb]
      refine iff_of_true ⟨by omega, by omega⟩ ⟨b, List.mem_append_right _ List.mem_cons_self, hb⟩
    · rw [if_neg hb]
      cases n with
      | zero =>
        refine iff_of_false (by omega) ?_
        simp [hb]
      | succ n =>
        have hih := ih n
        simp only [List.mem_append, List.mem_singleton, or_and_right, exists_or, exists_eq_left, hb, or_false]
        rw [← hih]
        omega

end ExpertServe.Lib
