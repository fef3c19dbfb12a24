import ExpertServe.Policy.Nucleus
import Mathlib.Tactic.GCongr
import Mathlib.Tactic.Linarith

/-!
# The speed dial

A model name may end in a tier, and the tier reaches the router as one number for each token. `_kt_topk_experiment`
reads it as a number of experts to keep, a speed level or a nucleus target, and `_kt_adaptive_keep_k` turns a level
and the mass of a row into a number of experts.

* `parseKeepKFromModel`, `ktKeepVec`: the number a name ends in, and what the router makes of it;
* `adaptiveRow_antitone`: a higher level never keeps more;
* `speedDial_iff`: keeping nothing is left to the levels above 75 exactly when the row is not too confident.
-/

namespace ExpertServe

open Lib

variable {E T : ℕ} {α : Type*} [Field α]

/-- What the tiers are set to, with the defaults of the source. -/
structure AdaptSettings (α : Type*) [Field α] where
  ktAdaptNucleusP : α := 0
  ktAdaptKmin : ℤ := 1
  ktAdaptKmax : ℤ := 8
  ktTopkK : ℕ := 2

def ktAdaptBase : ℤ := -1000

def ktAdaptDefaultSpeed : ℤ := 50

def ktNucBase : ℤ := -2000

/-! ## From a model name to a number -/

/-- The digits a name ends in, and what stands before them. -/
def splitDigits (model : List Char) : List Char × List Char :=
  ((model.reverse.dropWhile Char.isDigit).reverse, (model.reverse.takeWhile Char.isDigit).reverse)

/-- The number a list of digits spells. -/
def digitsValue (ds : List Char) : ℕ := ds.foldl (fun n d => 10 * n + (d.toNat - '0'.toNat)) 0

/-- The name ends in a tag, in letters of either case. -/
def endsWith (stem tag : List Char) : Bool := tag.isSuffixOf (stem.map Char.toLower)

/-- `_parse_keep_k_from_model`. -/
def parseKeepKFromModel (model : List Char) : Option ℤ :=
  let (stem, ds) := splitDigits model
  if (endsWith stem ['-', 'n', 'u', 'c'] || endsWith stem ['-', 'n', 'u', 'c', 'l', 'e', 'u', 's']) &&
      decide (1 ≤ ds.length ∧ ds.length ≤ 3) then
    some (ktNucBase - max 0 (min 100 (digitsValue ds : ℤ)))
  else if (endsWith stem ['-', 'a', 'd', 'a', 'p', 't'] ||
      endsWith stem ['-', 'a', 'd', 'a', 'p', 't', 'i', 'v', 'e']) && decide (ds.length ≤ 3) then
    let level := if ds = [] then ktAdaptDefaultSpeed else (digitsValue ds : ℤ)
    some (ktAdaptBase - max 0 (min 100 level))
  else if endsWith stem ['-', 't', 'o', 'p'] && decide (1 ≤ ds.length) then some (max 0 (min 8 (digitsValue ds : ℤ)))
  else none

variable [LinearOrder α]

/-! ## From a number to the experts kept -/

/-- `mass2`, `mass4`: the share of the `k` largest weights in the mass of the row. -/
def topShare (w : Fin E → α) (k : ℕ) : α := topSum w (min k E) / nucleusMass w

/-- `speed_raw`. -/
def speedRaw (speedLevel : Option (Fin T → α)) (t : Fin T) : α :=
  min (max (match speedLevel with
    | none => (ktAdaptDefaultSpeed : α)
    | some level => level t) 0) 100

def top2Threshold (speedRaw : α) : α := 60 / 100 - 20 / 100 * (speedRaw / 100)

def top4Threshold (speedRaw : α) : α := 80 / 100 - 20 / 100 * (speedRaw / 100)

def k0Threshold (speedRaw : α) : α := 92 / 100 - 42 / 100 * min (max ((speedRaw - 75) / 25) 0) 1

/-- How many experts a row keeps at a level. -/
def adaptiveRow (w : Fin E → α) (speedRaw : α) : ℕ :=
  let nonzeroK :=
    if top2Threshold speedRaw ≤ topShare w 2 then min 2 E
    else if top4Threshold speedRaw ≤ topShare w 4 then min 4 E
    else E
  let adaptiveK := if k0Threshold speedRaw ≤ topShare w 2 then 0 else nonzeroK
  if speedRaw ≤ 0 then E else if 100 ≤ speedRaw then 0 else adaptiveK

/-- `_kt_adaptive_keep_k`. -/
def ktAdaptiveKeepK (s : AdaptSettings α) (w : Fin T → Fin E → α) (speedLevel : Option (Fin T → α)) (t : Fin T) : ℕ :=
  if 0 < s.ktAdaptNucleusP then ktNucleusKeepK w (fun _ => s.ktAdaptNucleusP) s.ktAdaptKmin s.ktAdaptKmax t
  else adaptiveRow (w t) (speedRaw speedLevel t)

/-- `default_K_vec`. -/
def ktDefaultK (s : AdaptSettings α) (w : Fin T → Fin E → α) (t : Fin T) : ℕ :=
  if 0 < s.ktAdaptNucleusP then ktNucleusKeepK w (fun _ => s.ktAdaptNucleusP) s.ktAdaptKmin s.ktAdaptKmax t
  else min s.ktTopkK E

/-- `K_vec` of `_kt_topk_experiment`: how many experts each token keeps. -/
def ktKeepVec (s : AdaptSettings α) (w : Fin T → Fin E → α) (keepK : Option (Fin T → ℤ)) (t : Fin T) : ℕ :=
  match keepK with
  | none => ktDefaultK s w t
  | some raw =>
    let nuc : Fin T → Bool := fun t => decide (raw t ≤ ktNucBase ∧ ktNucBase - 100 ≤ raw t)
    let adaptiveLevel : Fin T → Bool := fun t => decide (raw t ≤ ktAdaptBase) && !nuc t
    let k := if raw t < 0 ∨ (E : ℤ) < raw t then ktDefaultK s w t else (raw t).toNat
    let speedLevel : Fin T → ℤ := fun t =>
      if adaptiveLevel t then min (max (-raw t + ktAdaptBase) 0) 100 else ktAdaptDefaultSpeed
    let k := if raw t = -2 ∨ adaptiveLevel t then ktAdaptiveKeepK s w (some fun t => (speedLevel t : α)) t else k
    let pRow : Fin T → α := fun t => min (max (((ktNucBase - raw t : ℤ) : α) / 100) 0) 1
    if nuc t then ktNucleusKeepK w pRow s.ktAdaptKmin s.ktAdaptKmax t else k

/-- What the dial promises of a row: a higher level keeps no more, level 0 keeps everything, level 100 nothing, and
no level up to 75 keeps nothing. -/
structure SpeedDial (s : AdaptSettings α) (w : Fin T → Fin E → α) (t : Fin T) : Prop where
  antitone : ∀ level level' : Fin T → α, 0 ≤ level t → level t ≤ level' t → level' t ≤ 100 →
    ktAdaptiveKeepK s w (some level') t ≤ ktAdaptiveKeepK s w (some level) t
  atZero : ∀ level : Fin T → α, level t = 0 → ktAdaptiveKeepK s w (some level) t = E
  atHundred : ∀ level : Fin T → α, level t = 100 → ktAdaptiveKeepK s w (some level) t = 0
  nothingAbove75 : ∀ level : Fin T → α, 0 ≤ level t → level t ≤ 100 → ktAdaptiveKeepK s w (some level) t = 0 →
    75 < level t

/-! ## The thresholds -/

section Thresholds

variable [IsStrictOrderedRing α] {r r' : α}

theorem top2Threshold_antitone (h : r ≤ r') : top2Threshold r' ≤ top2Threshold r := by
  unfold top2Threshold
  linarith

theorem top4Threshold_antitone (h : r ≤ r') : top4Threshold r' ≤ top4Threshold r := by
  unfold top4Threshold
  linarith

theorem k0Threshold_antitone (h : r ≤ r') : k0Threshold r' ≤ k0Threshold r := by
  have hramp : min (max ((r - 75) / 25) 0) 1 ≤ min (max ((r' - 75) / 25) 0) 1 := by gcongr
  unfold k0Threshold
  linarith

/-- Up to level 75 the threshold for keeping nothing does not move. -/
theorem k0Threshold_of_le (h : r ≤ 75) : k0Threshold r = 92 / 100 := by
  have hneg : (r - 75) / 25 ≤ 0 := div_nonpos_of_nonpos_of_nonneg (by linarith) (by norm_num)
  rw [k0Threshold, max_eq_right hneg, min_eq_left zero_le_one, mul_zero, sub_zero]

end Thresholds

/-! ## One row -/

section Row

variable {w : Fin E → α} {r r' : α}

theorem adaptiveRow_le : adaptiveRow w r ≤ E := by
  unfold adaptiveRow
  dsimp only
  split_ifs <;> omega

theorem adaptiveRow_of_nonpos (h : r ≤ 0) : adaptiveRow w r = E := by
  unfold adaptiveRow
  dsimp only
  rw [if_pos h]

variable [IsStrictOrderedRing α]

theorem adaptiveRow_of_top (h : 100 ≤ r) : adaptiveRow w r = 0 := by
  have hpos : ¬ r ≤ 0 := fun h0 => by linarith
  unfold adaptiveRow
  dsimp only
  rw [if_neg hpos, if_pos h]

/-- **A higher level never keeps more**: every threshold only falls, and what lies behind a threshold that is met is
no more than what lies behind the ones that are not. -/
theorem adaptiveRow_antitone (h : r ≤ r') : adaptiveRow w r' ≤ adaptiveRow w r := by
  by_cases h0 : r ≤ 0
  · rw [adaptiveRow_of_nonpos h0]
    exact adaptiveRow_le
  by_cases h100 : 100 ≤ r'
  · rw [adaptiveRow_of_top h100]
    exact Nat.zero_le _
  have h0' : ¬ r' ≤ 0 := fun hr => h0 (h.trans hr)
  have h100' : ¬ 100 ≤ r := fun hr => h100 (hr.trans h)
  have hk0 := k0Threshold_antitone h
  have hk2 := top2Threshold_antitone h
  have hk4 := top4Threshold_antitone h
  unfold adaptiveRow
  dsimp only
  rw [if_neg h0, if_neg h0', if_neg h100, if_neg h100']
  by_cases hnone : k0Threshold r ≤ topShare w 2
  · rw [if_pos (hk0.trans hnone)]
    exact Nat.zero_le _
  rw [if_neg hnone]
  by_cases htwo : top2Threshold r ≤ topShare w 2
  · rw [if_pos htwo, if_pos (hk2.trans htwo)]
    split_ifs <;> omega
  rw [if_neg htwo]
  by_cases hfour : top4Threshold r ≤ topShare w 4
  · rw [if_pos hfour, if_pos (hk4.trans hfour)]
    split_ifs <;> omega
  rw [if_neg hfour]
  split_ifs <;> omega

/-- Between the ends a level up to 75 keeps nothing exactly when the two largest weights have 92 percent of the mass,
or there is no expert to keep. -/
theorem adaptiveRow_eq_zero_iff (h0 : 0 < r) (h75 : r ≤ 75) :
    adaptiveRow w r = 0 ↔ E = 0 ∨ 92 / 100 ≤ topShare w 2 := by
  have h100 : ¬ 100 ≤ r := fun h => by linarith
  unfold adaptiveRow
  dsimp only
  rw [if_neg (not_le.mpr h0), if_neg h100, k0Threshold_of_le h75]
  by_cases hnone : 92 / 100 ≤ topShare w 2
  · rw [if_pos hnone]
    exact ⟨fun _ => Or.inr hnone, fun _ => rfl⟩
  · rw [if_neg hnone, or_iff_left hnone]
    split_ifs <;> omega

end Row

/-! ## The dial -/

section Dial

variable {s : AdaptSettings α} {w : Fin T → Fin E → α} {t : Fin T} {level : Fin T → α}

/-- With the nucleus mode off a level in range is what the row is read at. -/
theorem ktAdaptiveKeepK_of_level (hoff : s.ktAdaptNucleusP ≤ 0) (h0 : 0 ≤ level t) (h100 : level t ≤ 100) :
    ktAdaptiveKeepK s w (some level) t = adaptiveRow (w t) (level t) := by
  unfold ktAdaptiveKeepK speedRaw
  rw [if_neg (not_lt.mpr hoff), max_eq_left h0, min_eq_left h100]

variable [IsStrictOrderedRing α]

/-- **When the dial keeps its promises.** With the nucleus mode off, a row meets all of them exactly when it has an
expert and its two largest weights have less than 92 percent of its mass. -/
theorem speedDial_iff (s : AdaptSettings α) (w : Fin T → Fin E → α) (t : Fin T) (hoff : s.ktAdaptNucleusP ≤ 0) :
    SpeedDial s w t ↔ 0 < E ∧ topShare (w t) 2 < 92 / 100 := by
  constructor
  · intro h
    by_contra hcond
    -- level 50 keeps nothing
    have h50 : adaptiveRow (w t) 50 = 0 := by
      rw [adaptiveRow_eq_zero_iff (by norm_num) (by norm_num)]
      by_contra hmore
      push Not at hmore
      exact hcond ⟨Nat.pos_of_ne_zero hmore.1, hmore.2⟩
    have hkeep : ktAdaptiveKeepK s w (some fun _ => 50) t = adaptiveRow (w t) 50 :=
      ktAdaptiveKeepK_of_level hoff (by norm_num) (by norm_num)
    have habove := h.nothingAbove75 (fun _ => 50) (by norm_num) (by norm_num) (hkeep.trans h50)
    norm_num at habove
  · rintro ⟨hE, hshare⟩
    refine ⟨fun level level' h0 hle h100 => ?_, fun level h => ?_, fun level h => ?_, fun level h0 h100 hnone => ?_⟩
    · rw [ktAdaptiveKeepK_of_level hoff h0 (hle.trans h100), ktAdaptiveKeepK_of_level hoff (h0.trans hle) h100]
      exact adaptiveRow_antitone hle
    · rw [ktAdaptiveKeepK_of_level hoff h.ge (by rw [h]; norm_num)]
      exact adaptiveRow_of_nonpos h.le
    · rw [ktAdaptiveKeepK_of_level hoff (by rw [h]; norm_num) h.le]
      exact adaptiveRow_of_top h.ge
    · rw [ktAdaptiveKeepK_of_level hoff h0 h100] at hnone
      by_contra h75
      rcases h0.eq_or_lt with hzero | hpos
      · rw [adaptiveRow_of_nonpos hzero.ge] at hnone
        omega
      · rcases (adaptiveRow_eq_zero_iff hpos (not_lt.mp h75)).mp hnone with hempty | hconf
        · omega
        · exact absurd hshare (not_lt.mpr hconf)

end Dial

/-- A row with 4/5 of its mass on two of four experts. -/
theorem speedDial_iff_four :
    SpeedDial ({} : AdaptSettings ℚ) (fun _ : Fin 1 => ![1 / 2, 3 / 10, 1 / 10, 1 / 10]) 0 :=
  (speedDial_iff {} (fun _ : Fin 1 => ![1 / 2, 3 / 10, 1 / 10, 1 / 10]) 0 le_rfl).mpr (by decide +kernel)

/-- At level 50, the default, a row with 19/20 of its mass on two experts keeps nothing. -/
theorem speedDial_fifty_keeps_nothing :
    ktAdaptiveKeepK ({} : AdaptSettings ℚ) (fun _ : Fin 1 => ![4 / 5, 3 / 20, 1 / 40, 1 / 40]) (some fun _ => 50) 0 =
        0 ∧
      ¬ SpeedDial ({} : AdaptSettings ℚ) (fun _ : Fin 1 => ![4 / 5, 3 / 20, 1 / 40, 1 / 40]) 0 := by
  refine ⟨by decide +kernel, fun h => ?_⟩
  have habove := h.nothingAbove75 (fun _ => 50) (by decide +kernel) (by decide +kernel) (by decide +kernel)
  revert habove
  decide +kernel

/-! ## What a tier in a model name comes to -/

section Tiers

variable {s : AdaptSettings α} {w : Fin T → Fin E → α} {t : Fin T} {raw : Fin T → ℤ} {n : ℕ}

/-- A level in the number of a token is the level its row is read at. -/
theorem ktKeepVec_of_adapt (hn : n ≤ 100) (h : raw t = ktAdaptBase - n) :
    ktKeepVec s w (some raw) t = ktAdaptiveKeepK s w (some fun _ => (n : α)) t := by
  have hnuc : ¬ (raw t ≤ ktNucBase ∧ ktNucBase - 100 ≤ raw t) := by
    rw [h]
    unfold ktAdaptBase ktNucBase
    omega
  have hlevel : raw t ≤ ktAdaptBase := by
    rw [h]
    omega
  have hspeed : min (max (-raw t + ktAdaptBase) 0) 100 = (n : ℤ) := by
    rw [h]
    omega
  unfold ktKeepVec
  simp only [hnuc, hlevel, decide_false, decide_true, Bool.not_false, Bool.and_true, Bool.false_eq_true, if_false,
    or_true, if_true]
  unfold ktAdaptiveKeepK speedRaw
  simp only [hnuc, hlevel, hspeed, decide_false, decide_true, Bool.not_false, Bool.and_true, if_true, Int.cast_natCast]

/-- A nucleus target in the number of a token, in percent, is the target of its row. -/
theorem ktKeepVec_of_nuc [IsStrictOrderedRing α] (hn : n ≤ 100) (h : raw t = ktNucBase - n) :
    ktKeepVec s w (some raw) t = ktNucleusKeepK w (fun _ => (n : α) / 100) s.ktAdaptKmin s.ktAdaptKmax t := by
  have hnuc : raw t ≤ ktNucBase ∧ ktNucBase - 100 ≤ raw t := by
    rw [h]
    omega
  have hdiff : ktNucBase - raw t = (n : ℤ) := by
    rw [h]
    omega
  have h0 : (0 : α) ≤ (n : α) / 100 := by positivity
  have h1 : (n : α) / 100 ≤ 1 := by
    rw [div_le_one (by norm_num)]
    exact_mod_cast hn
  unfold ktKeepVec
  simp only [hnuc, decide_true, and_self, if_true]
  unfold ktNucleusKeepK
  simp only [hdiff, Int.cast_natCast, max_eq_left h0, min_eq_left h1]

/-- A number of experts is that number where the row has so many, and the default otherwise. -/
theorem ktKeepVec_of_top (h : raw t = n) :
    ktKeepVec s w (some raw) t = if n ≤ E then n else ktDefaultK s w t := by
  have hnuc : ¬ (raw t ≤ ktNucBase ∧ ktNucBase - 100 ≤ raw t) := by
    rw [h]
    unfold ktNucBase
    omega
  have hlevel : ¬ raw t ≤ ktAdaptBase := by
    rw [h]
    unfold ktAdaptBase
    omega
  have hadapt : ¬ raw t = -2 := by
    rw [h]
    omega
  unfold ktKeepVec
  simp only [hnuc, hlevel, hadapt, decide_false, Bool.false_and, Bool.false_eq_true, or_self, if_false]
  by_cases hE : n ≤ E
  · rw [if_pos hE, if_neg (by omega), h, Int.toNat_natCast]
  · rw [if_neg hE, if_pos (by omega)]

/-- What the name of a model can end in. -/
theorem parseKeepKFromModel_cases {model : List Char} {k : ℤ} (h : parseKeepKFromModel model = some k) :
    (∃ n ≤ 100, k = ktNucBase - (n : ℕ)) ∨ (∃ n ≤ 100, k = ktAdaptBase - (n : ℕ)) ∨ ∃ n ≤ 8, k = (n : ℕ) := by
  unfold parseKeepKFromModel at h
  dsimp only at h
  generalize (digitsValue (splitDigits model).2 : ℤ) = v at h
  split_ifs at h with hnuc hadapt hbare htop
  · refine Or.inl ⟨(max 0 (min 100 v)).toNat, by omega, ?_⟩
    rw [← Option.some.inj h]
    omega
  · refine Or.inr (Or.inl ⟨(max 0 (min 100 ktAdaptDefaultSpeed)).toNat, by decide, ?_⟩)
    rw [← Option.some.inj h]
    decide
  · refine Or.inr (Or.inl ⟨(max 0 (min 100 v)).toNat, by omega, ?_⟩)
    rw [← Option.some.inj h]
    omega
  · refine Or.inr (Or.inr ⟨(max 0 (min 8 v)).toNat, by omega, ?_⟩)
    rw [← Option.some.inj h]
    omega

/-- **From a name to a row.** The tier a model name ends in is a nucleus target in percent, a speed level or a number
of experts, and a token that carries it keeps what that tier gives its own row. -/
theorem ktKeepVec_of_name [IsStrictOrderedRing α] {model : List Char} {k : ℤ} (h : parseKeepKFromModel model = some k)
    (hraw : raw t = k) :
    (∃ n ≤ 100, ktKeepVec s w (some raw) t =
        ktNucleusKeepK w (fun _ => ((n : ℕ) : α) / 100) s.ktAdaptKmin s.ktAdaptKmax t) ∨
      (∃ n ≤ 100, ktKeepVec s w (some raw) t = ktAdaptiveKeepK s w (some fun _ => ((n : ℕ) : α)) t) ∨
      ∃ n ≤ 8, ktKeepVec s w (some raw) t = if n ≤ E then n else ktDefaultK s w t := by
  rcases parseKeepKFromModel_cases h with ⟨n, hn, hk⟩ | ⟨n, hn, hk⟩ | ⟨n, hn, hk⟩
  · exact Or.inl ⟨n, hn, ktKeepVec_of_nuc hn (hraw.trans hk)⟩
  · exact Or.inr (Or.inl ⟨n, hn, ktKeepVec_of_adapt hn (hraw.trans hk)⟩)
  · exact Or.inr (Or.inr ⟨n, hn, ktKeepVec_of_top (hraw.trans hk)⟩)

example : parseKeepKFromModel ['m', '-', 'A', 'd', 'a', 'p', 't', '7', '5'] = some (-1075) := by decide

end Tiers

end ExpertServe
