import ExpertServe.Lib.Rank
import Mathlib.Algebra.Order.Field.Basic
import Mathlib.Logic.Function.Iterate
import Mathlib.Tactic.Linarith
import Mathlib.Tactic.Ring

/-!
# Bisection

An interval whose upper end has a property is halved again and again, towards the part at whose upper end the property
holds and at whose lower end it does not.

* `bisect_spec`: the ends after `n` halvings;
* `bisect_threshold`: for a property that larger numbers have if smaller ones do, where it begins.
-/

namespace ExpertServe.Lib

variable {α : Type*} [Field α] [LinearOrder α] (p : α → Prop) [DecidablePred p]

/-- One halving of `(lo, hi)`. -/
def halve (i : α × α) : α × α :=
  let mid := (i.1 + i.2) / (2 : ℕ)
  if p mid then (i.1, mid) else (mid, i.2)

def bisect (n : ℕ) (i : α × α) : α × α := (halve p)^[n] i

variable [IsStrictOrderedRing α]

theorem bisect_spec {lo hi : α} (hle : lo ≤ hi) (hlo : ¬ p lo) (hhi : p hi) (n : ℕ) :
    let i := bisect p n (lo, hi)
    lo ≤ i.1 ∧ i.1 ≤ i.2 ∧ i.2 ≤ hi ∧ ¬ p i.1 ∧ p i.2 ∧ i.2 - i.1 = (hi - lo) / 2 ^ n := by
  induction n with
  | zero => exact ⟨le_rfl, hle, le_rfl, hlo, hhi, by simp [bisect]⟩
  | succ n ih =>
    obtain ⟨hlo', hle', hhi', hnot, hp, hwidth⟩ := ih
    have hstep : bisect p (n + 1) (lo, hi) = halve p (bisect p n (lo, hi)) := Function.iterate_succ_apply' ..
    have hhalf : (hi - lo) / 2 ^ (n + 1) = ((bisect p n (lo, hi)).2 - (bisect p n (lo, hi)).1) / 2 := by
      rw [hwidth, pow_succ, div_div]
    intro i
    show lo ≤ i.1 ∧ i.1 ≤ i.2 ∧ i.2 ≤ hi ∧ ¬ p i.1 ∧ p i.2 ∧ i.2 - i.1 = (hi - lo) / 2 ^ (n + 1)
    rw [hhalf]
    simp only [i, hstep, halve, Nat.cast_ofNat]
    split
    · next hmid => exact ⟨hlo', by linarith, by linarith, hnot, hmid, by ring⟩
    · next hmid => exact ⟨by linarith, by linarith, hhi', hmid, hp, by ring⟩

/-- **Where a property begins.** It holds from the upper end on, and not at or below the width before it. -/
theorem bisect_threshold (hmono : ∀ x y, x ≤ y → p x → p y) {lo hi : α} (hle : lo ≤ hi) (hlo : ¬ p lo) (hhi : p hi)
    (n : ℕ) :
    (∀ x, (bisect p n (lo, hi)).2 ≤ x → p x) ∧
      ∀ x, x ≤ (bisect p n (lo, hi)).2 - (hi - lo) / 2 ^ n → ¬ p x := by
  obtain ⟨-, -, -, hnot, hp, hwidth⟩ := bisect_spec p hle hlo hhi n
  refine ⟨fun x hx => hmono _ _ hx hp, fun x hx hpx => hnot (hmono _ _ ?_ hpx)⟩
  rw [← hwidth] at hx
  linarith

end ExpertServe.Lib
