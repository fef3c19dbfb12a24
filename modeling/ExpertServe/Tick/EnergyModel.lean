import ExpertServe.Tick.EnergyScan
import Mathlib.Data.List.Infix
import Mathlib.Tactic.Linarith
import Mathlib.Tactic.NormNum
import Mathlib.Tactic.Ring

/-!
# The energies over a run

Every step of a layer adds the router mass to a slow buffer, and to a fast buffer the same mass damped by how much of it
the expert has drawn before. The fast buffer decays more slowly while mass keeps coming.

* `EnergyDecay.update`, `energyRun`: one step, and the steps of a run;
* `slow_mono`: the slow buffer never ranks an expert above one that drew as much at every step;
* `fast_mono`: nor does the fast buffer, unless the damping makes up for the mass;
* `damped_of_growing`: which it does not while the lead of one expert over the other never shrinks;
* `energy_dominance`: what follows for the energies.
-/

namespace ExpertServe

open Lib

variable {E : ℕ} {α : Type*} [Field α]

/-! ## The model -/

/-- The settings of the buffers, with the defaults of the source. -/
structure EnergyDecay (α : Type*) [Field α] extends EnergyRates α where
  ktEnergyLambdaFastMax : α := 97 / 100
  ktEnergyStickyK : α := 1
  ktEnergyIdfC : α := 2 / 100

/-- `_kt_energy_fast` and `_kt_energy_slow` of a layer. -/
structure EnergyState (E : ℕ) (α : Type*) where
  fast : Fin E → α
  slow : Fin E → α

namespace EnergyDecay

variable (d : EnergyDecay α) (sticky : α → α)

def idf (slow : Fin E → α) (e : Fin E) : α := d.ktEnergyIdfC / (d.rateSlow slow e + d.ktEnergyIdfC)

/-- `sat`. -/
def saturation (p : Fin E → α) (e : Fin E) : α := p e / (p e + d.ktEnergyStickyK * ((∑ e, p e) / E) + eMinus 12)

/-- The decay of an expert that draws `p e`; `sticky` is the power of `_KT_ENERGY_STICKY_BETA`. -/
def lam (p : Fin E → α) (e : Fin E) : α :=
  d.ktEnergyLambdaFast + (d.ktEnergyLambdaFastMax - d.ktEnergyLambdaFast) * sticky (d.saturation p e)

/-- The energy update of `_kt_topk_experiment`, for the mass `p` of a step. -/
def update (s : EnergyState E α) (p : Fin E → α) : EnergyState E α :=
  let slow := fun e => s.slow e * d.ktEnergyLambdaSlow + p e
  { fast := fun e => s.fast e * d.lam sticky p e + p e * d.idf slow e
    slow := slow }

end EnergyDecay

/-- The buffers after the steps of a run, from zero. -/
def energyRun (d : EnergyDecay α) (sticky : α → α) (ps : List (Fin E → α)) : EnergyState E α :=
  ps.foldl (d.update sticky) ⟨fun _ => 0, fun _ => 0⟩

theorem energyRun_append (d : EnergyDecay α) (sticky : α → α) (ps : List (Fin E → α)) (p : Fin E → α) :
    energyRun d sticky (ps ++ [p]) = d.update sticky (energyRun d sticky ps) p := by
  unfold energyRun
  rw [List.foldl_append, List.foldl_cons, List.foldl_nil]

variable [LinearOrder α]

/-- The ranges the settings are meant for; the power is any increasing map of `[0, 1)` into itself. -/
structure EnergyDecay.InRange (d : EnergyDecay α) (sticky : α → α) : Prop where
  fast : 0 < d.ktEnergyLambdaFast ∧ d.ktEnergyLambdaFast < 1
  slow : 0 < d.ktEnergyLambdaSlow ∧ d.ktEnergyLambdaSlow < 1
  fastMax : d.ktEnergyLambdaFast ≤ d.ktEnergyLambdaFastMax ∧ d.ktEnergyLambdaFastMax < 1
  stickyK : 0 ≤ d.ktEnergyStickyK
  idfC : 0 < d.ktEnergyIdfC
  sticky_mem : ∀ x, 0 ≤ x → x < 1 → 0 ≤ sticky x ∧ sticky x < 1
  sticky_mono : ∀ x y, 0 ≤ x → x ≤ y → y < 1 → sticky x ≤ sticky y

/-- Router masses are not negative. -/
def Masses (ps : List (Fin E → α)) : Prop := ∀ p ∈ ps, ∀ e, 0 ≤ p e

/-- `a` draws at least as much as `b` at every step. -/
def Dominates (ps : List (Fin E → α)) (a b : Fin E) : Prop := ∀ p ∈ ps, p b ≤ p a

/-- At every step of the run the mass of `a`, damped by its history, is at least that of `b`. -/
def DampedDominates (d : EnergyDecay α) (sticky : α → α) (ps : List (Fin E → α)) (a b : Fin E) : Prop :=
  ∀ pre p, pre ++ [p] <+: ps →
    p b * d.idf (energyRun d sticky (pre ++ [p])).slow b ≤ p a * d.idf (energyRun d sticky (pre ++ [p])).slow a

/-- The lead of `a` over `b` never shrinks: the ratio of their masses is no lower at a later step. -/
def LeadGrows (ps : List (Fin E → α)) (a b : Fin E) : Prop := ps.Pairwise fun p q => q b * p a ≤ q a * p b

section Laws

variable {d : EnergyDecay α} {sticky : α → α} {ps : List (Fin E → α)} {a b : Fin E}

theorem Masses.left {qs : List (Fin E → α)} (h : Masses (ps ++ qs)) : Masses ps := fun p hp =>
  h p (List.mem_append_left qs hp)

theorem Masses.last {p : Fin E → α} (h : Masses (ps ++ [p])) : ∀ e, 0 ≤ p e := h p (by simp)

theorem DampedDominates.left {qs : List (Fin E → α)} (h : DampedDominates d sticky (ps ++ qs) a b) :
    DampedDominates d sticky ps a b := fun pre p hpre => h pre p (hpre.trans (List.prefix_append ps qs))

theorem kthLargest_nonneg {r : Fin E → α} (h : ∀ e, 0 ≤ r e) (k : ℕ) : 0 ≤ kthLargest r k := by
  unfold kthLargest
  rw [List.getD_eq_getElem?_getD]
  cases hget : (sortDesc r)[k - 1]? with
  | none => exact le_refl _
  | some x =>
    have hmem := (sortDesc_perm r).mem_iff.mp (List.mem_of_getElem? hget)
    obtain ⟨e, -, rfl⟩ := List.mem_map.mp hmem
    exact h e

variable [IsStrictOrderedRing α]

/-! ## The slow buffer -/

theorem slow_nonneg (hd : d.InRange sticky) (h : Masses ps) (e : Fin E) : 0 ≤ (energyRun d sticky ps).slow e := by
  induction ps using List.reverseRecOn with
  | nil => exact le_refl _
  | append_singleton ps p ih =>
    rw [energyRun_append]
    exact add_nonneg (mul_nonneg (ih h.left) hd.slow.1.le) (h.last e)

/-- The slow buffer keeps the order of two experts. -/
theorem slow_mono (hd : d.InRange sticky) (hdom : Dominates ps a b) :
    (energyRun d sticky ps).slow b ≤ (energyRun d sticky ps).slow a := by
  induction ps using List.reverseRecOn with
  | nil => exact le_refl _
  | append_singleton ps p ih =>
    rw [energyRun_append]
    have hslow := ih fun q hq => hdom q (List.mem_append_left _ hq)
    exact add_le_add (mul_le_mul_of_nonneg_right hslow hd.slow.1.le) (hdom p (by simp))

theorem rateSlow_nonneg (hd : d.InRange sticky) (h : Masses ps) (e : Fin E) :
    0 ≤ d.rateSlow (energyRun d sticky ps).slow e :=
  mul_nonneg (slow_nonneg hd h e) (sub_nonneg.mpr hd.slow.2.le)

theorem rateSlow_mono (hd : d.InRange sticky) (hdom : Dominates ps a b) :
    d.rateSlow (energyRun d sticky ps).slow b ≤ d.rateSlow (energyRun d sticky ps).slow a :=
  mul_le_mul_of_nonneg_right (slow_mono hd hdom) (sub_nonneg.mpr hd.slow.2.le)

/-- What drew in a ratio that no later mass falls below accumulates in one that it does not fall below either. -/
theorem mul_slow_le (hd : d.InRange sticky) {q : Fin E → α} (h : ∀ p ∈ ps, q b * p a ≤ q a * p b) :
    q b * (energyRun d sticky ps).slow a ≤ q a * (energyRun d sticky ps).slow b := by
  induction ps using List.reverseRecOn with
  | nil => simp [energyRun]
  | append_singleton ps p ih =>
    have hpre := mul_le_mul_of_nonneg_right (ih fun p hp => h p (List.mem_append_left _ hp)) hd.slow.1.le
    have hlast := h p (by simp)
    rw [energyRun_append]
    show q b * (_ * d.ktEnergyLambdaSlow + p a) ≤ q a * (_ * d.ktEnergyLambdaSlow + p b)
    linarith

/-! ## The fast buffer -/

theorem idf_nonneg (hd : d.InRange sticky) (h : Masses ps) (e : Fin E) : 0 ≤ d.idf (energyRun d sticky ps).slow e :=
  div_nonneg hd.idfC.le (add_nonneg (rateSlow_nonneg hd h e) hd.idfC.le)

/-- While the lead of `a` never shrinks the damping does not make up for it. -/
theorem damped_of_growing (hd : d.InRange sticky) (hmass : Masses ps) (hdom : Dominates ps a b)
    (hlead : LeadGrows ps a b) : DampedDominates d sticky ps a b := by
  intro pre p hpre
  obtain ⟨rest, hps⟩ := hpre
  have hmass' : Masses (pre ++ [p]) := fun q hq => hmass q (hps ▸ List.mem_append_left rest hq)
  have hdom' : p b ≤ p a := hdom p (hps ▸ by simp)
  have hearlier : ∀ q ∈ pre ++ [p], p b * q a ≤ p a * q b := by
    intro q hq
    rcases List.mem_append.mp hq with hq | hq
    · have hpair : (pre ++ [p]).Pairwise fun p q => q b * p a ≤ q a * p b :=
        hlead.sublist (hps ▸ List.sublist_append_left _ rest)
      exact (List.pairwise_append.mp hpair).2.2 q hq p (by simp)
    · rw [List.mem_singleton.mp hq, mul_comm]
  have hslow := mul_le_mul_of_nonneg_right (mul_slow_le hd hearlier) (sub_nonneg.mpr hd.slow.2.le)
  have hra := rateSlow_nonneg hd hmass' a
  have hrb := rateSlow_nonneg hd hmass' b
  have hC := mul_le_mul_of_nonneg_right hdom' hd.idfC.le
  have hcross : p b * (d.rateSlow (energyRun d sticky (pre ++ [p])).slow a + d.ktEnergyIdfC) ≤
      p a * (d.rateSlow (energyRun d sticky (pre ++ [p])).slow b + d.ktEnergyIdfC) := by
    unfold EnergyRates.rateSlow
    linarith
  unfold EnergyDecay.idf
  rw [← mul_div_assoc, ← mul_div_assoc, div_le_div_iff₀ (by linarith [hd.idfC]) (by linarith [hd.idfC])]
  calc p b * d.ktEnergyIdfC * (d.rateSlow (energyRun d sticky (pre ++ [p])).slow a + d.ktEnergyIdfC)
      = d.ktEnergyIdfC * (p b * (d.rateSlow (energyRun d sticky (pre ++ [p])).slow a + d.ktEnergyIdfC)) := by ring
    _ ≤ d.ktEnergyIdfC * (p a * (d.rateSlow (energyRun d sticky (pre ++ [p])).slow b + d.ktEnergyIdfC)) :=
        mul_le_mul_of_nonneg_left hcross hd.idfC.le
    _ = p a * d.ktEnergyIdfC * (d.rateSlow (energyRun d sticky (pre ++ [p])).slow b + d.ktEnergyIdfC) := by ring

/-- What the saturation adds to a mass in its denominator. -/
theorem saturation_rest_pos (hd : d.InRange sticky) {p : Fin E → α} (hp : ∀ e, 0 ≤ p e) :
    0 < d.ktEnergyStickyK * ((∑ e, p e) / E) + eMinus 12 := by
  have hmean : 0 ≤ (∑ e, p e) / (E : α) := div_nonneg (Finset.sum_nonneg fun e _ => hp e) (Nat.cast_nonneg E)
  exact add_pos_of_nonneg_of_pos (mul_nonneg hd.stickyK hmean) (eMinus_pos 12)

theorem saturation_mem (hd : d.InRange sticky) {p : Fin E → α} (hp : ∀ e, 0 ≤ p e) (e : Fin E) :
    0 ≤ d.saturation p e ∧ d.saturation p e < 1 := by
  have hrest := saturation_rest_pos hd hp
  unfold EnergyDecay.saturation
  rw [add_assoc]
  constructor
  · exact div_nonneg (hp e) (add_nonneg (hp e) hrest.le)
  · rw [div_lt_one (by linarith [hp e])]
    exact lt_add_of_pos_right _ hrest

theorem saturation_mono (hd : d.InRange sticky) {p : Fin E → α} (hp : ∀ e, 0 ≤ p e) (h : p b ≤ p a) :
    d.saturation p b ≤ d.saturation p a := by
  have hrest := saturation_rest_pos hd hp
  have hmul := mul_le_mul_of_nonneg_right h hrest.le
  unfold EnergyDecay.saturation
  rw [add_assoc, add_assoc, div_le_div_iff₀ (by linarith [hp b]) (by linarith [hp a])]
  linarith

theorem lam_nonneg (hd : d.InRange sticky) {p : Fin E → α} (hp : ∀ e, 0 ≤ p e) (e : Fin E) : 0 ≤ d.lam sticky p e := by
  obtain ⟨h0, h1⟩ := saturation_mem hd hp e
  exact add_nonneg hd.fast.1.le (mul_nonneg (sub_nonneg.mpr hd.fastMax.1) (hd.sticky_mem _ h0 h1).1)

theorem lam_mono (hd : d.InRange sticky) {p : Fin E → α} (hp : ∀ e, 0 ≤ p e) (h : p b ≤ p a) :
    d.lam sticky p b ≤ d.lam sticky p a := by
  have hsticky := hd.sticky_mono _ _ (saturation_mem hd hp b).1 (saturation_mono hd hp h) (saturation_mem hd hp a).2
  unfold EnergyDecay.lam
  linarith [mul_le_mul_of_nonneg_left hsticky (sub_nonneg.mpr hd.fastMax.1)]

theorem fast_nonneg (hd : d.InRange sticky) (h : Masses ps) (e : Fin E) : 0 ≤ (energyRun d sticky ps).fast e := by
  induction ps using List.reverseRecOn with
  | nil => exact le_refl _
  | append_singleton ps p ih =>
    have hbump := mul_nonneg (h.last e) (idf_nonneg hd h e)
    rw [energyRun_append] at hbump ⊢
    exact add_nonneg (mul_nonneg (ih h.left) (lam_nonneg hd h.last e)) hbump

/-- The fast buffer keeps the order of two experts of which one draws more, damping included. -/
theorem fast_mono (hd : d.InRange sticky) (hmass : Masses ps) (hdom : Dominates ps a b)
    (hdamped : DampedDominates d sticky ps a b) :
    (energyRun d sticky ps).fast b ≤ (energyRun d sticky ps).fast a := by
  induction ps using List.reverseRecOn with
  | nil => exact le_refl _
  | append_singleton ps p ih =>
    have hfast := ih hmass.left (fun q hq => hdom q (List.mem_append_left _ hq)) hdamped.left
    have hkept : (energyRun d sticky ps).fast b * d.lam sticky p b ≤
        (energyRun d sticky ps).fast a * d.lam sticky p a :=
      mul_le_mul hfast (lam_mono hd hmass.last (hdom p (by simp))) (lam_nonneg hd hmass.last b)
        (fast_nonneg hd hmass.left a)
    have hbump := hdamped ps p (List.prefix_refl _)
    rw [energyRun_append] at hbump ⊢
    exact add_le_add hkept hbump

/-! ## The energies -/

/-- A layer with the buffers of a run. -/
def EnergyState.buffers (s : EnergyState E α) (numGpuExperts : ℕ) : EnergyBuffers E α :=
  ⟨some s.fast, some s.slow, numGpuExperts⟩

/-- The factor of the fast rates is never negative. -/
theorem exists_energy {pow : α → α → α} (hpow : ∀ x h, 0 < x → 0 < pow x h) (hd : d.InRange sticky) (hmass : Masses ps)
    (numGpuExperts : ℕ) (numGpu : Option ℕ) :
    ∃ alpha, 0 ≤ alpha ∧ ktEnergyOf pow d.toEnergyRates ((energyRun d sticky ps).buffers numGpuExperts) numGpu =
      some fun e => d.rateSlow (energyRun d sticky ps).slow e + alpha * d.rateFast (energyRun d sticky ps).fast e := by
  refine ⟨_, ?_, rfl⟩
  split
  · obtain ⟨factor, hpos, hfactor⟩ := holdAlpha_eq (c := d.toEnergyRates) hpow
    rw [hfactor]
    exact mul_nonneg hpos.le (kthLargest_nonneg (rateSlow_nonneg hd hmass) _)
  · next h => exact (not_le.mp h).le

/-- **Dominance.** If `a` draws at least as much as `b` at every step, its persistent rate is at least that of `b`, and
so is its energy while the mass it draws, damped by its history, is at least that of `b`; which it is while the lead of
`a` never shrinks. -/
theorem energy_dominance {pow : α → α → α} (hpow : ∀ x h, 0 < x → 0 < pow x h) (hd : d.InRange sticky)
    (hmass : Masses ps) (hdom : Dominates ps a b) (numGpuExperts : ℕ) (numGpu : Option ℕ) :
    d.rateSlow (energyRun d sticky ps).slow b ≤ d.rateSlow (energyRun d sticky ps).slow a ∧
    (DampedDominates d sticky ps a b → ∃ energy, ktEnergyOf pow d.toEnergyRates
      ((energyRun d sticky ps).buffers numGpuExperts) numGpu = some energy ∧ energy b ≤ energy a) ∧
    (LeadGrows ps a b → DampedDominates d sticky ps a b) := by
  refine ⟨rateSlow_mono hd hdom, fun hdamped => ?_, damped_of_growing hd hmass hdom⟩
  obtain ⟨alpha, halpha, henergy⟩ := exists_energy hpow hd hmass numGpuExperts numGpu
  refine ⟨_, henergy, add_le_add (rateSlow_mono hd hdom) (mul_le_mul_of_nonneg_left ?_ halpha)⟩
  exact mul_le_mul_of_nonneg_right (fast_mono hd hmass hdom hdamped) (sub_nonneg.mpr hd.fast.2.le)

end Laws

theorem inRange_defaults : ({} : EnergyDecay ℚ).InRange id where
  fast := by norm_num
  slow := by norm_num
  fastMax := by norm_num
  stickyK := by norm_num
  idfC := by norm_num
  sticky_mem := fun _ h0 h1 => ⟨h0, h1⟩
  sticky_mono := fun _ _ _ h _ => h

/-- Two steps of constant masses. -/
theorem energy_dominance_constant :
    ∃ energy, ktEnergyOf (fun x _ => x ^ 4) ({} : EnergyDecay ℚ).toEnergyRates
      ((energyRun {} id [![2, 1, 0], ![2, 1, 0]]).buffers 1) none = some energy ∧ energy 1 ≤ energy (0 : Fin 3) := by
  have hmass : Masses ([![2, 1, 0], ![2, 1, 0]] : List (Fin 3 → ℚ)) := by
    unfold Masses
    decide
  have hdom : Dominates ([![2, 1, 0], ![2, 1, 0]] : List (Fin 3 → ℚ)) 0 1 := by
    unfold Dominates
    decide
  obtain ⟨-, hdamped, hgrowing⟩ := energy_dominance (fun x _ hx => pow_pos hx 4) inRange_defaults hmass hdom 1 none
  exact hdamped (hgrowing (by simp [LeadGrows]))

/-- `0` draws once more than `1` and never less, but has a history to be damped by when `1` first fires. -/
theorem rare_outranks :
    ({} : EnergyDecay ℚ).InRange id ∧
    ¬∀ ps : List (Fin 3 → ℚ), Masses ps → Dominates ps 0 1 →
      ∃ energy, ktEnergyOf (fun x _ => x ^ 4) ({} : EnergyDecay ℚ).toEnergyRates
        ((energyRun {} id ps).buffers 1) none = some energy ∧ energy 1 ≤ energy 0 := by
  refine ⟨inRange_defaults, fun h => ?_⟩
  have hrare := h ([![1, 0, 2]] ++ List.replicate 11 ![0, 0, 2] ++ [![1, 1, 2]]) (by unfold Masses; decide)
    (by unfold Dominates; decide)
  obtain ⟨energy, henergy, hle⟩ := hrare
  obtain rfl := Option.some.inj henergy
  revert hle
  decide +kernel

end ExpertServe
