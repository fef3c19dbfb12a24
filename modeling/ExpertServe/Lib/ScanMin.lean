import Mathlib.Algebra.Order.Group.Defs
import Mathlib.Order.Basic
import Mathlib.Tactic.NormNum

/-!
# Scanning for a minimum with slack

A scan over `0, 1, ..., n` keeps the first candidate until a later one is better.

* `scan_le_add`: with a slack, the candidate kept is at most the slack above every other;
* `scan_lt`: it is below every earlier one;
* `scan_pos_iff`: when the first candidate is given up;
* `scan_mono`: two scans of values that agree up to a point, after which those of the first rise.
-/

namespace ExpertServe.Lib

section Scan

variable (better : ℕ → ℕ → Prop) [DecidableRel better]

def scan : ℕ → ℕ
  | 0 => 0
  | n + 1 => if better (n + 1) (scan n) then n + 1 else scan n

theorem scan_le (n : ℕ) : scan better n ≤ n := by
  induction n with
  | zero => exact le_rfl
  | succ n ih =>
    unfold scan
    split
    · exact le_rfl
    · exact ih.trans (Nat.le_succ n)

theorem scan_le_scan_succ (n : ℕ) : scan better n ≤ scan better (n + 1) := by
  have hle := scan_le better n
  rw [scan]
  split
  · exact hle.trans (Nat.le_succ n)
  · exact le_rfl

/-- Where nothing is ever better the first candidate stays. -/
theorem scan_eq_zero (h : ∀ k b, ¬ better k b) (n : ℕ) : scan better n = 0 := by
  induction n with
  | zero => rfl
  | succ n ih => rw [scan, if_neg (h _ _), ih]

theorem scan_congr {better' : ℕ → ℕ → Prop} [DecidableRel better'] {n : ℕ}
    (h : ∀ k ≤ n, ∀ b ≤ n, better k b ↔ better' k b) : scan better n = scan better' n := by
  induction n with
  | zero => rfl
  | succ n ih =>
    have hprev : scan better n = scan better' n :=
      ih fun k hk b hb => h k (hk.trans (Nat.le_succ n)) b (hb.trans (Nat.le_succ n))
    have hlast := h (n + 1) le_rfl (scan better' n) ((scan_le better' n).trans (Nat.le_succ n))
    rw [scan, scan, hprev]
    exact if_congr hlast rfl rfl

end Scan

section Slack

variable {α : Type*} [AddCommGroup α] [LinearOrder α] [IsOrderedAddMonoid α] {ε : α}

/-- A candidate is better if its value is lower by more than the slack. -/
def LowerBy (ε : α) (f : ℕ → α) (k b : ℕ) : Prop := f k + ε < f b

instance (ε : α) (f : ℕ → α) : DecidableRel (LowerBy ε f) := fun k b => inferInstanceAs (Decidable (f k + ε < f b))

variable {f g : ℕ → α}

theorem scan_succ_value_le (hε : 0 ≤ ε) (n : ℕ) : f (scan (LowerBy ε f) (n + 1)) ≤ f (scan (LowerBy ε f) n) := by
  rw [scan]
  split
  · next h => exact (le_add_of_nonneg_right hε).trans h.le
  · exact le_rfl

theorem scan_le_add (hε : 0 ≤ ε) {n k : ℕ} (hk : k ≤ n) : f (scan (LowerBy ε f) n) ≤ f k + ε := by
  induction n with
  | zero =>
    obtain rfl := Nat.le_zero.1 hk
    exact le_add_of_nonneg_right hε
  | succ n ih =>
    rcases hk.eq_or_lt with rfl | hlt
    · rw [scan]
      split
      · exact le_add_of_nonneg_right hε
      · next h => exact not_lt.1 h
    · exact (scan_succ_value_le hε n).trans (ih (Nat.le_of_lt_succ hlt))

theorem scan_lt (hε : 0 ≤ ε) {n k : ℕ} (hk : k < scan (LowerBy ε f) n) : f (scan (LowerBy ε f) n) < f k := by
  induction n with
  | zero => cases hk
  | succ n ih =>
    rw [scan] at hk ⊢
    split at hk
    · next h =>
      rw [if_pos h]
      have hslack : f (scan (LowerBy ε f) n) ≤ f k + ε := scan_le_add hε (Nat.le_of_lt_succ hk)
      exact lt_of_add_lt_add_right (h.trans_le hslack)
    · next h =>
      rw [if_neg h]
      exact ih hk

theorem scan_pos_iff (hε : 0 ≤ ε) (n : ℕ) :
    0 < scan (LowerBy ε f) n ↔ ∃ k, 1 ≤ k ∧ k ≤ n ∧ f k + ε < f 0 := by
  constructor
  · intro hpos
    induction n with
    | zero => cases hpos
    | succ n ih =>
      rw [scan] at hpos
      split at hpos
      · next h =>
        rcases Nat.eq_zero_or_pos (scan (LowerBy ε f) n) with hzero | hprev
        · rw [hzero] at h
          exact ⟨n + 1, Nat.succ_pos n, le_rfl, h⟩
        · obtain ⟨k, hk, hkn, hlt⟩ := ih hprev
          exact ⟨k, hk, hkn.trans (Nat.le_succ n), hlt⟩
      · obtain ⟨k, hk, hkn, hlt⟩ := ih hpos
        exact ⟨k, hk, hkn.trans (Nat.le_succ n), hlt⟩
  · rintro ⟨k, -, hkn, hlt⟩
    by_contra hnot
    have hslack : f (scan (LowerBy ε f) n) ≤ f k + ε := scan_le_add hε hkn
    rw [Nat.eq_zero_of_not_pos hnot] at hslack
    exact absurd hlt (not_lt.2 hslack)

/-- **Scans compared.** Where the values agree up to `m`, the next of the second is no higher, and those of the first do
not fall any more after it, the second scan gets at least as far. -/
theorem scan_mono (hε : 0 ≤ ε) {m : ℕ} (hsame : ∀ k ≤ m, f k = g k) (hnext : g (m + 1) ≤ f (m + 1))
    (hrise : ∀ k, m < k → f k ≤ f (k + 1)) (n : ℕ) : scan (LowerBy ε f) n ≤ scan (LowerBy ε g) n := by
  induction n with
  | zero => exact le_rfl
  | succ n ih =>
    have hlater : scan (LowerBy ε g) n ≤ scan (LowerBy ε g) (n + 1) := scan_le_scan_succ _ n
    rcases lt_trichotomy n m with hlt | rfl | hgt
    · apply le_of_eq
      apply scan_congr
      intro k hk b hb
      unfold LowerBy
      rw [hsame k (hk.trans hlt), hsame b (hb.trans hlt)]
    · have hprev : scan (LowerBy ε f) n = scan (LowerBy ε g) n := by
        apply scan_congr
        intro k hk b hb
        unfold LowerBy
        rw [hsame k hk, hsame b hb]
      have hbest : f (scan (LowerBy ε g) n) = g (scan (LowerBy ε g) n) := hsame _ (scan_le _ n)
      rw [scan, scan, hprev]
      by_cases h : LowerBy ε f (n + 1) (scan (LowerBy ε g) n)
      · have h' : LowerBy ε g (n + 1) (scan (LowerBy ε g) n) :=
          lt_of_le_of_lt (add_le_add_left hnext ε) (lt_of_lt_of_eq h hbest)
        rw [if_pos h, if_pos h']
      · rw [if_neg h, ← scan]
        exact hlater
    · -- the first scan is past its last improvement
      have hstop : ¬ LowerBy ε f (n + 1) (scan (LowerBy ε f) n) := by
        have hslack : f (scan (LowerBy ε f) n) ≤ f n + ε := scan_le_add hε le_rfl
        exact not_lt.2 (hslack.trans (add_le_add_left (hrise n hgt) ε))
      rw [scan, if_neg hstop]
      exact ih.trans hlater

end Slack

end ExpertServe.Lib
