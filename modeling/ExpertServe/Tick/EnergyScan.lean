import ExpertServe.Lib.TopSum
import ExpertServe.Tick.Energy
import Mathlib.Data.Fin.VecNotation
import Mathlib.Tactic.FinCases
import Mathlib.Tactic.LinearCombination

/-!
# The energies of all layers at once

`_kt_energy_of` scales the fast rates of a layer by a factor that makes a surge last: it rests on the bar of the
layer, the slow rate of the last expert that fits on its GPU. `_kt_energy_all` does the same for all layers in one
pass, with one number of GPU experts for all of them, that of the first layer.

* `energy_eq_iff`: two bars give a layer the same energies exactly when they are equal or the layer has no fast rates;
* `ktEnergyAll_agrees_iff`: when the pass agrees with the per-layer code on every layer.
-/

namespace ExpertServe

open Lib

variable {E L : ℕ} {α : Type*} [Field α] [LinearOrder α]

/-- The energy settings, with the defaults of the source. -/
structure EnergyRates (α : Type*) [Field α] where
  ktEnergyLambdaFast : α := 75 / 100
  ktEnergyLambdaSlow : α := 999 / 1000
  ktEnergyAlpha : α := 0
  ktEnergyHoldSteps : α := 4
  ktEnergyPRef : α := 25 / 100

/-- What the energies of a layer are computed from. -/
structure EnergyBuffers (E : ℕ) (α : Type*) where
  ktEnergyFast : Option (Fin E → α)
  ktEnergySlow : Option (Fin E → α)
  numGpuExperts : ℕ

/-- `torch.topk(r, k).values[-1]`. -/
def kthLargest (r : Fin E → α) (k : ℕ) : α := (sortDesc r).getD (k - 1) 0

/-- `torch.stack`: the rows of a batch, all of which must be there. -/
def stackRows {β : Type*} {n : ℕ} (rows : Fin n → Option β) : Option (Fin n → β) :=
  if h : ∀ i, (rows i).isSome then some fun i => (rows i).get (h i) else none

omit [LinearOrder α] in
/-- `rate_slow`. -/
def EnergyRates.rateSlow (c : EnergyRates α) (es : Fin E → α) (e : Fin E) : α := es e * (1 - c.ktEnergyLambdaSlow)

omit [LinearOrder α] in
/-- `rate_fast`. -/
def EnergyRates.rateFast (c : EnergyRates α) (ef : Fin E → α) (e : Fin E) : α := ef e * (1 - c.ktEnergyLambdaFast)

/-- The factor that carries a surge over a bar for the steps it is to be held, with the power taken by `pow`. -/
def EnergyRates.holdAlpha (c : EnergyRates α) (pow : α → α → α) (bar : α) : α :=
  pow (1 / max c.ktEnergyLambdaFast (eMinus 6)) c.ktEnergyHoldSteps * bar /
    max ((1 - c.ktEnergyLambdaFast) * c.ktEnergyPRef) (eMinus 9)

/-- `_kt_energy_of`. -/
def ktEnergyOf (pow : α → α → α) (c : EnergyRates α) (method : EnergyBuffers E α) (numGpu : Option ℕ) :
    Option (Fin E → α) :=
  match method.ktEnergyFast, method.ktEnergySlow with
  | some ef, some es =>
    let k := max 1 (min (numGpu.getD method.numGpuExperts) E)
    let alpha := if c.ktEnergyAlpha ≤ 0 then c.holdAlpha pow (kthLargest (c.rateSlow es) k) else c.ktEnergyAlpha
    some fun e => c.rateSlow es e + alpha * c.rateFast ef e
  | _, _ => none

/-- `_kt_energy_all`. -/
def ktEnergyAll (pow : α → α → α) (c : EnergyRates α) (methods : Fin (L + 1) → EnergyBuffers E α) :
    Option (Fin (L + 1) → Fin E → α) :=
  match stackRows fun i => (methods i).ktEnergyFast, stackRows fun i => (methods i).ktEnergySlow with
  | some fast, some slow =>
    let k := max 1 (min (methods 0).numGpuExperts E)
    some fun i e =>
      if c.ktEnergyAlpha ≤ 0 then
        c.rateSlow (slow i) e + c.holdAlpha pow (kthLargest (c.rateSlow (slow i)) k) * c.rateFast (fast i) e
      else c.rateSlow (slow i) e + c.ktEnergyAlpha * c.rateFast (fast i) e
  | _, _ => none

/-- The energies of the layers one after the other, if every layer has its own. -/
def ktEnergyEach (pow : α → α → α) (c : EnergyRates α) (methods : Fin (L + 1) → EnergyBuffers E α) :
    Option (Fin (L + 1) → Fin E → α) := stackRows fun i => ktEnergyOf pow c (methods i) none

/-- What a tick sets out to do with the energies it was given, nothing without any. -/
def energyScanTick (env : Env α) (s : Server E L α) (allE : Option (Fin L → Fin E → α)) :
    List (Promotion E L α) × List (Fin L) :=
  match allE with
  | none => ([], [])
  | some allE => energyTodo env s allE

/-- The pass gives every layer the energies of its own, and a tick the same moves. -/
structure ScanAgrees (pow : α → α → α) (c : EnergyRates α) (methods : Fin (L + 1) → EnergyBuffers E α) : Prop where
  rows : ∀ i, (ktEnergyAll pow c methods).map (fun allE => allE i) = ktEnergyOf pow c (methods i) none
  moves : ∀ (env : Env α) (s : Server E (L + 1) α),
    energyScanTick env s (ktEnergyAll pow c methods) = energyScanTick env s (ktEnergyEach pow c methods)

/-- A layer has its buffers. -/
def EnergyBuffers.Allocated (m : EnergyBuffers E α) : Prop := m.ktEnergyFast.isSome ∧ m.ktEnergySlow.isSome

/-- The bar of the layer for its own number of GPU experts is the one for the number of the first layer, or the layer
has no fast rates. -/
def BarAgrees (c : EnergyRates α) (numFirst : ℕ) (m : EnergyBuffers E α) : Prop :=
  kthLargest (c.rateSlow (m.ktEnergySlow.getD fun _ => 0)) (max 1 (min numFirst E)) =
      kthLargest (c.rateSlow (m.ktEnergySlow.getD fun _ => 0)) (max 1 (min m.numGpuExperts E)) ∨
    ∀ e, c.rateFast (m.ktEnergyFast.getD fun _ => 0) e = 0

section Rows

theorem stackRows_eq_some_iff {β : Type*} {n : ℕ} {rows : Fin n → Option β} {f : Fin n → β} :
    stackRows rows = some f ↔ ∀ i, rows i = some (f i) := by
  unfold stackRows
  constructor
  · intro h i
    split at h
    · obtain rfl := Option.some.inj h
      exact (Option.some_get _).symm
    · exact absurd h.symm (Option.some_ne_none f)
  · intro h
    have hsome : ∀ i, (rows i).isSome := fun i => by rw [h i]; rfl
    rw [dif_pos hsome]
    congr 1
    funext i
    exact Option.get_of_eq_some _ (h i)

theorem stackRows_eq_none {β : Type*} {n : ℕ} {rows : Fin n → Option β} {i : Fin n} (h : rows i = none) :
    stackRows rows = none := by
  unfold stackRows
  rw [dif_neg fun hall => by simpa [h] using hall i]

variable {pow : α → α → α} {c : EnergyRates α} {methods : Fin (L + 1) → EnergyBuffers E α}

theorem ktEnergyOf_of_not_allocated {m : EnergyBuffers E α} (h : ¬ m.Allocated) (num : Option ℕ) :
    ktEnergyOf pow c m num = none := by
  unfold ktEnergyOf
  split
  · rename_i hf hs
    exact absurd ⟨by rw [hf]; rfl, by rw [hs]; rfl⟩ h
  · rfl

theorem ktEnergyAll_of_not_allocated {i : Fin (L + 1)} (h : ¬ (methods i).Allocated) :
    ktEnergyAll pow c methods = none := by
  unfold ktEnergyAll
  split
  · rename_i hf hs
    have hfi := stackRows_eq_some_iff.mp hf i
    have hsi := stackRows_eq_some_iff.mp hs i
    exact absurd ⟨by rw [hfi]; rfl, by rw [hsi]; rfl⟩ h
  · rfl

omit [Field α] [LinearOrder α] in
/-- Layers that all have their buffers have them as one family. -/
theorem exists_buffers (h : ∀ i, (methods i).Allocated) : ∃ fast slow : Fin (L + 1) → Fin E → α,
    (∀ i, (methods i).ktEnergyFast = some (fast i)) ∧ ∀ i, (methods i).ktEnergySlow = some (slow i) := by
  choose fast hfast using fun i => Option.isSome_iff_exists.mp (h i).1
  choose slow hslow using fun i => Option.isSome_iff_exists.mp (h i).2
  exact ⟨fast, slow, hfast, hslow⟩

/-- Where the rows agree, so do the batches, and with them everything computed from them. -/
theorem ktEnergyAll_eq_each (h : ∀ i, (methods i).Allocated)
    (hrows : ∀ i, (ktEnergyAll pow c methods).map (fun allE => allE i) = ktEnergyOf pow c (methods i) none) :
    ktEnergyAll pow c methods = ktEnergyEach pow c methods := by
  obtain ⟨fast, slow, hfast, hslow⟩ := exists_buffers h
  have hall : ∃ allE, ktEnergyAll pow c methods = some allE := by
    unfold ktEnergyAll
    rw [stackRows_eq_some_iff.mpr hfast, stackRows_eq_some_iff.mpr hslow]
    exact ⟨_, rfl⟩
  obtain ⟨allE, hallE⟩ := hall
  rw [hallE] at hrows ⊢
  exact (stackRows_eq_some_iff.mpr fun i => (hrows i).symm).symm

end Rows

/-! ## One layer with two bars -/

section Bars

variable [IsStrictOrderedRing α] {pow : α → α → α} {c : EnergyRates α}

/-- A surge is scaled by a positive multiple of the bar. -/
theorem holdAlpha_eq (hpow : ∀ b h, 0 < b → 0 < pow b h) :
    ∃ factor : α, 0 < factor ∧ ∀ bar, c.holdAlpha pow bar = factor * bar := by
  have hbase : 0 < 1 / max c.ktEnergyLambdaFast (eMinus 6) :=
    div_pos one_pos (lt_max_of_lt_right (eMinus_pos 6))
  have hden : 0 < max ((1 - c.ktEnergyLambdaFast) * c.ktEnergyPRef) (eMinus 9) := lt_max_of_lt_right (eMinus_pos 9)
  refine ⟨_, div_pos (hpow _ c.ktEnergyHoldSteps hbase) hden, fun bar => ?_⟩
  exact mul_div_right_comm _ _ _

/-- **Two bars give a layer the same energies** exactly when they are equal, or the layer has no fast rates. -/
theorem energy_eq_iff (hpow : ∀ b h, 0 < b → 0 < pow b h) (rs rf : Fin E → α) (bar bar' : α) :
    (fun e => rs e + c.holdAlpha pow bar * rf e) = (fun e => rs e + c.holdAlpha pow bar' * rf e) ↔
      bar = bar' ∨ ∀ e, rf e = 0 := by
  obtain ⟨factor, hpos, hfactor⟩ := holdAlpha_eq (c := c) hpow
  rw [funext_iff]
  constructor
  · intro h
    by_contra hno
    push Not at hno
    obtain ⟨hbar, e, he⟩ := hno
    have hzero : factor * (bar - bar') * rf e = 0 := by
      have heq := h e
      rw [hfactor, hfactor] at heq
      linear_combination heq
    rcases mul_eq_zero.mp hzero with hleft | hright
    · rcases mul_eq_zero.mp hleft with hf | hdiff
      · exact hpos.ne' hf
      · exact hbar (sub_eq_zero.mp hdiff)
    · exact he hright
  · rintro (rfl | hnone) e
    · rfl
    · rw [hnone e, mul_zero, mul_zero]

end Bars

/-! ## All layers -/

section Scan

variable [IsStrictOrderedRing α] {pow : α → α → α} {c : EnergyRates α} {methods : Fin (L + 1) → EnergyBuffers E α}

/-- Where every layer has its buffers, the pass agrees with the code of one layer exactly when the factor is fixed or
the bars of the layer agree. -/
theorem row_eq_iff (hpow : ∀ b h, 0 < b → 0 < pow b h) (h : ∀ i, (methods i).Allocated) (i : Fin (L + 1)) :
    (ktEnergyAll pow c methods).map (fun allE => allE i) = ktEnergyOf pow c (methods i) none ↔
      0 < c.ktEnergyAlpha ∨ BarAgrees c (methods 0).numGpuExperts (methods i) := by
  obtain ⟨fast, slow, hfast, hslow⟩ := exists_buffers h
  unfold ktEnergyAll ktEnergyOf BarAgrees
  rw [stackRows_eq_some_iff.mpr hfast, stackRows_eq_some_iff.mpr hslow, hfast i, hslow i]
  simp only [Option.map_some, Option.some.injEq, Option.getD_none, Option.getD_some]
  by_cases hfixed : 0 < c.ktEnergyAlpha
  · simp [hfixed, not_le.mpr hfixed]
  · simp only [hfixed, not_lt.mp hfixed, if_true, false_or]
    exact energy_eq_iff hpow _ _ _ _

/-- **When the pass over all layers is the per-layer code.** It gives every layer the energies of its own, and a tick
the same moves, exactly when no layer has its buffers, or all of them have and the factor is fixed or the bars of every
layer agree. -/
theorem ktEnergyAll_agrees_iff (pow : α → α → α) (hpow : ∀ b h, 0 < b → 0 < pow b h) (c : EnergyRates α)
    (methods : Fin (L + 1) → EnergyBuffers E α) :
    ScanAgrees pow c methods ↔
      (∀ i, ¬ (methods i).Allocated) ∨ (∀ i, (methods i).Allocated) ∧
        (0 < c.ktEnergyAlpha ∨ ∀ i, BarAgrees c (methods 0).numGpuExperts (methods i)) := by
  by_cases hall : ∀ i, (methods i).Allocated
  · have hsome : ¬ ∀ i, ¬ (methods i).Allocated := fun hnone => hnone 0 (hall 0)
    rw [or_iff_right hsome, and_iff_right hall, ← forall_or_left]
    constructor
    · exact fun hscan i => (row_eq_iff hpow hall i).mp (hscan.rows i)
    · intro hbars
      have hrows := fun i => (row_eq_iff hpow hall i).mpr (hbars i)
      exact ⟨hrows, fun env s => by rw [ktEnergyAll_eq_each hall hrows]⟩
  · -- one layer without buffers leaves all of them without energies
    rw [or_iff_left fun h => hall h.1]
    push Not at hall
    obtain ⟨j, hj⟩ := hall
    have hnone : ktEnergyAll pow c methods = none := ktEnergyAll_of_not_allocated hj
    constructor
    · intro hscan i hi
      have hrow := hscan.rows i
      rw [hnone, Option.map_none] at hrow
      obtain ⟨ef, hef⟩ := Option.isSome_iff_exists.mp hi.1
      obtain ⟨es, hes⟩ := Option.isSome_iff_exists.mp hi.2
      rw [ktEnergyOf, hef, hes] at hrow
      exact absurd hrow (Option.some_ne_none _).symm
    · intro hempty
      refine ⟨fun i => ?_, fun env s => ?_⟩
      · rw [hnone, ktEnergyOf_of_not_allocated (hempty i)]
        rfl
      · rw [hnone, ktEnergyEach, stackRows_eq_none (ktEnergyOf_of_not_allocated (hempty 0) none)]

end Scan

/-! ## Layers of different sizes -/

/-- Two layers of three experts with the same energies, one of which has `n` experts on the GPU and the other one. -/
def twoLayers (n : ℕ) : Fin 2 → EnergyBuffers 3 ℚ :=
  ![⟨some ![1, 0, 0], some ![3000, 2000, 1000], 1⟩, ⟨some ![1, 0, 0], some ![3000, 2000, 1000], n⟩]

/-- With one expert each the pass agrees; the power is the fourth, for the four steps of the default. -/
theorem ktEnergyAll_agrees_pair : ScanAgrees (fun b _ => b ^ 4) {} (twoLayers 1) := by
  refine (ktEnergyAll_agrees_iff (fun b _ => b ^ 4) (fun b _ hb => by positivity) {} (twoLayers 1)).mpr (Or.inr ?_)
  refine ⟨fun i => ?_, Or.inr fun i => Or.inl ?_⟩
  · fin_cases i <;> exact ⟨rfl, rfl⟩
  · fin_cases i <;> rfl

/-- With one expert on the GPU in the first layer and two in the second, the second is scanned with a bar of 3
instead of 2. -/
theorem ktEnergyAll_differs_pair : ¬ ScanAgrees (fun b _ => b ^ 4) {} (twoLayers 2) := by
  intro h
  have hrow := congrArg (fun row => row.map fun e => e 0) (h.rows 1)
  revert hrow
  decide +kernel

end ExpertServe
