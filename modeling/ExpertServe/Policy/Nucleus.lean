import ExpertServe.Env
import ExpertServe.Lib.TopSum
import Mathlib.Data.Fin.VecNotation
import Mathlib.Order.Bounds.Basic

/-!
# The nucleus of a routed row

`_kt_nucleus_keep_k` keeps, row by row, the fewest experts that hold a target share of the weight of the row, within
bounds. It counts the prefixes of the sorted row that stay short of the target.

* `nucleusBelow_lt_iff`: the count is below `k` exactly when the `k` largest weights reach the target;
* `isLeast_clamp_or`: what clamping the next number to two bounds finds;
* `ktNucleusKeepK_spec`: the count is the least in its bounds, and depends on nothing but the weights of its row.
-/

namespace ExpertServe

open Lib

variable {E T : ℕ} {α : Type*} [Field α] [LinearOrder α]

/-- `lo`: the lower bound as the source cuts it. -/
def keepLo (kmin : ℤ) (E : ℕ) : ℕ := (max 1 (min kmin E)).toNat

/-- `hi`: the upper bound as the source cuts it. -/
def keepHi (kmin kmax : ℤ) (E : ℕ) : ℕ := max (keepLo kmin E) (min kmax E).toNat

/-- `denom`: the mass of the row, or the floor it does not reach. -/
def nucleusMass (w : Fin E → α) : α := max (sortDesc w).sum (eMinus 9)

/-- `below`: how many prefixes of the sorted row are short of the target. -/
def nucleusBelow (w : Fin E → α) (p : α) : ℕ :=
  (List.range E).countP fun j => decide (((sortDesc w).take (j + 1)).sum / nucleusMass w < p)

/-- `_kt_nucleus_keep_k`: how many experts each row keeps, by its own target. -/
def ktNucleusKeepK (w : Fin T → Fin E → α) (p : Fin T → α) (kmin kmax : ℤ) (t : Fin T) : ℕ :=
  min (max (nucleusBelow (w t) (p t) + 1) (keepLo kmin E)) (keepHi kmin kmax E)

/-- What the count of a row is: the least number in the bounds whose largest weights reach the target, and the upper
bound when none does. -/
structure IsNucleus (w : Fin E → α) (p : α) (lo hi k : ℕ) : Prop where
  inBounds : lo ≤ k ∧ k ≤ hi
  least : IsLeast {k | lo ≤ k ∧ k ≤ hi ∧ p * max (∑ e, w e) (eMinus 9) ≤ topSum w k} k ∨
    k = hi ∧ ∀ k, lo ≤ k → k ≤ hi → topSum w k < p * max (∑ e, w e) (eMinus 9)

section Bounds

variable {kmin kmax : ℤ}

theorem one_le_keepLo : 1 ≤ keepLo kmin E := by
  unfold keepLo
  omega

theorem keepLo_le_keepHi : keepLo kmin E ≤ keepHi kmin kmax E := le_max_left _ _

theorem keepHi_le (hE : 0 < E) : keepHi kmin kmax E ≤ E := by
  unfold keepHi keepLo
  omega

/-- Clamping the number behind `b` to two bounds finds the least number in them above `b`, or the upper bound. -/
theorem isLeast_clamp_or {lo hi b : ℕ} (hle : lo ≤ hi) {P : ℕ → Prop} (hP : ∀ k, lo ≤ k → k ≤ hi → (b < k ↔ P k)) :
    IsLeast {k | lo ≤ k ∧ k ≤ hi ∧ P k} (min (max (b + 1) lo) hi) ∨
      min (max (b + 1) lo) hi = hi ∧ ∀ k, lo ≤ k → k ≤ hi → ¬ P k := by
  by_cases hb : b < hi
  · left
    refine ⟨⟨by omega, by omega, (hP _ (by omega) (by omega)).mp (by omega)⟩, ?_⟩
    rintro k ⟨hlo, hhi, hk⟩
    have hbk : b < k := (hP k hlo hhi).mpr hk
    omega
  · right
    refine ⟨by omega, fun k hlo hhi hk => ?_⟩
    have hbk : b < k := (hP k hlo hhi).mpr hk
    omega

end Bounds

section Below

variable [IsStrictOrderedRing α] {w : Fin E → α} {p : α}

omit [IsStrictOrderedRing α] in
theorem nucleusMass_eq : nucleusMass w = max (∑ e, w e) (eMinus 9) := by rw [nucleusMass, sum_sortDesc]

theorem nucleusMass_pos : 0 < nucleusMass w := lt_max_of_lt_right (eMinus_pos 9)

/-- The prefixes short of the target are the first ones. -/
theorem lt_nucleusBelow_iff (h0 : ∀ e, 0 ≤ w e) {j : ℕ} (hj : j < E) :
    j < nucleusBelow w p ↔ topSum w (j + 1) / nucleusMass w < p := by
  have hsorted : (List.range E).Pairwise fun i j =>
      OrderDual.toDual (topSum w (j + 1) / nucleusMass w) ≤ OrderDual.toDual (topSum w (i + 1) / nucleusMass w) := by
    refine List.pairwise_lt_range.imp fun {i j} hij => OrderDual.toDual_le_toDual.mpr ?_
    exact div_le_div_of_nonneg_right (topSum_mono h0 (by omega)) nucleusMass_pos.le
  have hlen : j < (List.range E).length := by simpa using hj
  have hcount := lt_countP_iff_of_desc (t := OrderDual.toDual p) hsorted hlen
  rw [List.getElem_range] at hcount
  exact hcount

/-- **The count of short prefixes.** It is below `k` exactly when the `k` largest weights reach the target. -/
theorem nucleusBelow_lt_iff (h0 : ∀ e, 0 ≤ w e) {k : ℕ} (hk : 1 ≤ k) (hkE : k ≤ E) :
    nucleusBelow w p < k ↔ p * nucleusMass w ≤ topSum w k := by
  obtain ⟨j, rfl⟩ : ∃ j, k = j + 1 := ⟨k - 1, by omega⟩
  have hshort := lt_nucleusBelow_iff h0 (p := p) (j := j) (by omega)
  rw [← le_div_iff₀ nucleusMass_pos, ← not_lt, ← hshort]
  omega

omit [IsStrictOrderedRing α] in
theorem nucleusBelow_mono {p' : α} (h : p ≤ p') : nucleusBelow w p ≤ nucleusBelow w p' := by
  refine List.countP_mono_left fun j _ hj => ?_
  simp only [decide_eq_true_eq] at hj ⊢
  exact hj.trans_le h

omit [IsStrictOrderedRing α] in
theorem nucleusBelow_comp_perm (σ : Equiv.Perm (Fin E)) : nucleusBelow (w ∘ σ) p = nucleusBelow w p := by
  unfold nucleusBelow nucleusMass
  rw [sortDesc_comp_perm]

end Below

section Rows

variable {w : Fin T → Fin E → α} {p : Fin T → α} {kmin kmax : ℤ}

/-- The count of a row is its nucleus. -/
theorem isNucleus_ktNucleusKeepK [IsStrictOrderedRing α] (t : Fin T) (h0 : ∀ e, 0 ≤ w t e) :
    IsNucleus (w t) (p t) (keepLo kmin E) (keepHi kmin kmax E) (ktNucleusKeepK w p kmin kmax t) := by
  have hlo : 1 ≤ keepLo kmin E := one_le_keepLo
  have hle : keepLo kmin E ≤ keepHi kmin kmax E := keepLo_le_keepHi
  refine ⟨⟨by unfold ktNucleusKeepK; omega, by unfold ktNucleusKeepK; omega⟩, ?_⟩
  rw [← nucleusMass_eq]
  simp only [← not_le]
  by_cases hE : E = 0
  · -- without experts both bounds are one
    subst hE
    have hlo' : keepLo kmin 0 = 1 := by
      unfold keepLo
      omega
    have hhi : keepHi kmin kmax 0 = 1 := by
      unfold keepHi
      omega
    have hone : ktNucleusKeepK w p kmin kmax t = 1 := by
      unfold ktNucleusKeepK
      omega
    rw [hlo', hhi, hone]
    by_cases hreach : p t * nucleusMass (w t) ≤ topSum (w t) 1
    · exact Or.inl ⟨⟨le_rfl, le_rfl, hreach⟩, fun k hk => hk.1⟩
    · refine Or.inr ⟨rfl, fun k hk hk' => ?_⟩
      rwa [le_antisymm hk' hk]
  · have hhi : keepHi kmin kmax E ≤ E := keepHi_le (Nat.pos_of_ne_zero hE)
    exact isLeast_clamp_or hle fun k hk hk' => nucleusBelow_lt_iff h0 (hlo.trans hk) (hk'.trans hhi)

/-- **The nucleus count.** For every batch of non-negative rows, every target of each row and any bounds, the count
of a row is the least number in the bounds, cut to the row, whose largest weights reach the target share of its mass
or of the floor `1e-9`. It depends on no other row and on no order of its own, and grows with the target. -/
theorem ktNucleusKeepK_spec [IsStrictOrderedRing α] (w : Fin T → Fin E → α) (p : Fin T → α) (kmin kmax : ℤ)
    (h0 : ∀ t e, 0 ≤ w t e) :
    (∀ t, IsNucleus (w t) (p t) (keepLo kmin E) (keepHi kmin kmax E) (ktNucleusKeepK w p kmin kmax t)) ∧
    (∀ (w' : Fin T → Fin E → α) (p' : Fin T → α) (t : Fin T) (σ : Equiv.Perm (Fin E)), w' t = w t ∘ σ → p' t = p t →
      ktNucleusKeepK w' p' kmin kmax t = ktNucleusKeepK w p kmin kmax t) ∧
    ∀ (p' : Fin T → α) (t : Fin T), p t ≤ p' t →
      ktNucleusKeepK w p kmin kmax t ≤ ktNucleusKeepK w p' kmin kmax t := by
  refine ⟨fun t => isNucleus_ktNucleusKeepK t (h0 t), fun w' p' t σ hw hp => ?_, fun p' t hp => ?_⟩
  · unfold ktNucleusKeepK
    rw [hw, hp, nucleusBelow_comp_perm]
  · have hbelow := nucleusBelow_mono (w := w t) hp
    unfold ktNucleusKeepK
    omega

end Rows

/-- A batch of one row of three weights. -/
def threeRow : Fin 1 → Fin 3 → ℚ := fun _ => ![1 / 5, 3 / 10, 1 / 2]

/-- Three quarters of the mass take two experts. -/
theorem ktNucleusKeepK_spec_three :
    IsNucleus (threeRow 0) (3 / 4) (keepLo 1 3) (keepHi 1 8 3) (ktNucleusKeepK threeRow (fun _ => 3 / 4) 1 8 0) :=
  (ktNucleusKeepK_spec threeRow (fun _ => 3 / 4) 1 8 (by decide +kernel)).1 0

example : ktNucleusKeepK threeRow (fun _ => 3 / 4) 1 8 0 = 2 := by decide +kernel

/-- Bounds beyond the row are cut to it: of the counts 4 and 5, the row of three experts gets 3. And a row whose mass
is below the floor keeps everything, although one expert has all of its mass. -/
theorem ktNucleusKeepK_cut :
    ktNucleusKeepK threeRow (fun _ => 3 / 4) 4 5 0 = 3 ∧
      ktNucleusKeepK (fun _ : Fin 1 => ![eMinus 10, 0, (0 : ℚ)]) (fun _ => 1 / 2) 1 8 0 = 3 := by
  decide +kernel

end ExpertServe
