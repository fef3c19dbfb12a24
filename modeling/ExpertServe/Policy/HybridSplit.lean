import ExpertServe.Env
import ExpertServe.Lib.Bisect
import ExpertServe.Lib.Rank
import ExpertServe.Lib.ScanMin
import Mathlib.Algebra.Order.Floor.Ring
import Mathlib.Algebra.Order.Monoid.WithTop
import Mathlib.Data.Rat.Floor
import Mathlib.Tactic.Positivity

/-!
# How many experts to stream

`hybrid_policy.py` decides from measured constants how many of the experts of a layer are shipped to the GPU while the
CPU works on the others.

* `costAt`, `chooseK`: what a split costs, and the split that is chosen;
* `chooseK_spec`: no split costs less, up to the slack, and no smaller one as little;
* `chooseK_link_mono`: a faster link never makes it stream less;
* `breakEven_spec`: where streaming begins to pay, to within the last halving of the bisection;
* `chooseK_cpu_drops`: more work on the CPU can still make it stream one expert less.
-/

namespace ExpertServe.HybridSplit

open Lib

variable {α : Type*} [Field α] [LinearOrder α] [FloorRing α]

/-- `round` of Python: half to even. -/
def pyRound (x : α) : ℤ :=
  if x - ⌊x⌋ < ⌊x⌋ + 1 - x then ⌊x⌋
  else if ⌊x⌋ + 1 - x < x - ⌊x⌋ then ⌊x⌋ + 1
  else if ⌊x⌋ % 2 = 0 then ⌊x⌋ else ⌊x⌋ + 1

/-- Everything the decision needs, measured per host. -/
structure Constants (α : Type*) where
  cpuMsPerLayer : α
  unitsPerLayer : α
  distinctPerLayer : α
  bytesPerExpertGb : α
  linkGbs : α
  contentionMsPerGb : α
  gpuMsPerExpert : α
  fixedMsPerLayer : α

structure LayerCost (α : Type*) where
  k : ℤ
  layerMs : WithTop α
  cpuMs : α
  linkMs : WithTop α
  extraMs : α

namespace Constants

variable (c : Constants α)

def reuse : α := if 0 < c.distinctPerLayer then c.unitsPerLayer / c.distinctPerLayer else 1

def cpuMsPerUnit : α := if 0 < c.unitsPerLayer then c.cpuMsPerLayer / c.unitsPerLayer else 0

/-- `cost_at`. -/
def costAt (k : ℤ) : LayerCost α :=
  let k := max 0 (min k (pyRound c.distinctPerLayer))
  let unitsLeft := max (c.unitsPerLayer - c.reuse * k) 0
  let cpuMs := c.cpuMsPerUnit * unitsLeft
  let cpuMs :=
    if 0 < k ∧ unitsLeft ≤ 0 then 0
    else if 0 < c.cpuMsPerLayer then cpuMs + c.fixedMsPerLayer else cpuMs
  let gb := k * c.bytesPerExpertGb
  let linkMs : WithTop α := if 0 < c.linkGbs then ((gb / c.linkGbs * (1000 : ℕ) : α) : WithTop α) else ⊤
  let extraMs := gb * c.contentionMsPerGb + k * c.gpuMsPerExpert
  ⟨k, max (cpuMs : WithTop α) linkMs + extraMs, cpuMs, linkMs, extraMs⟩

/-- `cand.layer_ms < best.layer_ms - 1e-9`. -/
def Cheaper (cand best : LayerCost α) : Prop := cand.layerMs < best.layerMs.map (· - eMinus 9)

instance : DecidableRel (Cheaper (α := α)) := fun cand best =>
  inferInstanceAs (Decidable (cand.layerMs < best.layerMs.map (· - eMinus 9)))

/-- `choose_k`. -/
def chooseK : LayerCost α :=
  (List.range (pyRound c.distinctPerLayer).toNat).foldl (fun best (i : ℕ) =>
    let cand := c.costAt (i + 1 : ℕ)
    if Cheaper cand best then cand else best) (c.costAt 0)

/-- `break_even_cpu_ms_per_layer`, `none` for infinity. -/
def breakEven (hi : α) : Option α :=
  if c.linkGbs ≤ 0 ∨ c.distinctPerLayer ≤ 0 ∨ c.unitsPerLayer ≤ 0 then none
  else if ({ c with cpuMsPerLayer := hi } : Constants α).chooseK.k = 0 then none
  else some (bisect (fun mid => 0 < ({ c with cpuMsPerLayer := mid } : Constants α).chooseK.k) 60 (0, hi)).2

/-! ## The costs of the splits that are compared -/

/-- The largest split. -/
def most : ℕ := (pyRound c.distinctPerLayer).toNat

/-- What is left to the CPU. -/
def unitsLeft (k : ℕ) : α := max (c.unitsPerLayer - c.reuse * k) 0

def cpu (k : ℕ) : α :=
  if 0 < (k : ℤ) ∧ c.unitsLeft k ≤ 0 then 0
  else if 0 < c.cpuMsPerLayer then c.cpuMsPerUnit * c.unitsLeft k + c.fixedMsPerLayer
  else c.cpuMsPerUnit * c.unitsLeft k

def link (k : ℕ) : α := k * c.bytesPerExpertGb / c.linkGbs * (1000 : ℕ)

def extra (k : ℕ) : α := k * c.bytesPerExpertGb * c.contentionMsPerGb + k * c.gpuMsPerExpert

def layer (k : ℕ) : α := max (c.cpu k) (c.link k) + c.extra k

/-- No constant is below zero. -/
structure Measured : Prop where
  cpuMsPerLayer : 0 ≤ c.cpuMsPerLayer
  unitsPerLayer : 0 ≤ c.unitsPerLayer
  bytesPerExpertGb : 0 ≤ c.bytesPerExpertGb
  contentionMsPerGb : 0 ≤ c.contentionMsPerGb
  gpuMsPerExpert : 0 ≤ c.gpuMsPerExpert
  fixedMsPerLayer : 0 ≤ c.fixedMsPerLayer

section Costs

variable {c} {k b : ℕ}

theorem costAt_of_le (hk : k ≤ c.most) : c.costAt k =
    ⟨k, max (c.cpu k : WithTop α) (if 0 < c.linkGbs then (c.link k : WithTop α) else ⊤) + c.extra k, c.cpu k,
      if 0 < c.linkGbs then (c.link k : WithTop α) else ⊤, c.extra k⟩ := by
  have hclamp : max 0 (min (k : ℤ) (pyRound c.distinctPerLayer)) = k := by
    unfold most at hk
    omega
  unfold costAt
  rw [hclamp]
  simp only [cpu, link, extra, unitsLeft, Int.cast_natCast]
  congr

theorem layerMs_costAt (hlink : 0 < c.linkGbs) (hk : k ≤ c.most) : (c.costAt k).layerMs = (c.layer k : WithTop α) := by
  rw [costAt_of_le hk]
  simp only [if_pos hlink, layer, WithTop.coe_add, WithTop.coe_max]

theorem layerMs_of_no_link (hlink : c.linkGbs ≤ 0) (hk : k ≤ c.most) : (c.costAt k).layerMs = ⊤ := by
  rw [costAt_of_le hk]
  simp [not_lt.2 hlink]

/-- The choice is a scan. -/
theorem chooseK_eq_scan : c.chooseK = c.costAt (scan (fun k b => Cheaper (c.costAt k) (c.costAt b)) c.most : ℕ) := by
  unfold chooseK
  show (List.range c.most).foldl _ _ = _
  induction c.most with
  | zero => rfl
  | succ n ih =>
    rw [List.range_succ, List.foldl_append, ih]
    simp only [List.foldl_cons, List.foldl_nil, scan]
    split <;> simp

variable [IsStrictOrderedRing α]

theorem cheaper_iff (hlink : 0 < c.linkGbs) (hk : k ≤ c.most) (hb : b ≤ c.most) :
    Cheaper (c.costAt k) (c.costAt b) ↔ LowerBy (eMinus 9) c.layer k b := by
  unfold Cheaper LowerBy
  rw [layerMs_costAt hlink hk, layerMs_costAt hlink hb, WithTop.map_coe, WithTop.coe_lt_coe, lt_sub_iff_add_lt]

omit [IsStrictOrderedRing α] in
theorem not_cheaper (hlink : c.linkGbs ≤ 0) (hk : k ≤ c.most) : ¬ Cheaper (c.costAt k) (c.costAt b) := by
  unfold Cheaper
  rw [layerMs_of_no_link hlink hk]
  exact not_top_lt

/-- With a link the choice is the scan of the layer costs, with the slack of the comparison. -/
theorem chooseK_of_link (hlink : 0 < c.linkGbs) :
    c.chooseK = c.costAt (scan (LowerBy (eMinus 9) c.layer) c.most : ℕ) := by
  rw [chooseK_eq_scan]
  congr 2
  exact scan_congr _ fun k hk b hb => cheaper_iff hlink hk hb

omit [IsStrictOrderedRing α] in
/-- Without one nothing is streamed. -/
theorem chooseK_of_no_link (hlink : c.linkGbs ≤ 0) : c.chooseK = c.costAt 0 := by
  have hscan : scan (fun k b => Cheaper (c.costAt k) (c.costAt b)) c.most = 0 := by
    have hnever : scan (fun k b => Cheaper (c.costAt k) (c.costAt b)) c.most = scan (fun _ _ => False) c.most :=
      scan_congr _ fun k hk b _ => iff_of_false (not_cheaper hlink hk) id
    rw [hnever, scan_eq_zero _ fun _ _ => id]
  rw [chooseK_eq_scan, hscan]
  rfl

omit [IsStrictOrderedRing α] in
theorem k_costAt (hk : k ≤ c.most) : (c.costAt k).k = k := by
  rw [costAt_of_le hk]

/-- **The choice.** Up to the slack no split costs less, and every smaller split costs more: ties go to less
streaming. -/
theorem chooseK_spec (c : Constants α) : ∃ k ≤ c.most, c.chooseK = c.costAt k ∧
    (∀ j ≤ c.most, (c.costAt k).layerMs ≤ (c.costAt j).layerMs + (eMinus 9 : α)) ∧
    ∀ j < k, (c.costAt k).layerMs < (c.costAt j).layerMs := by
  rcases lt_or_ge 0 c.linkGbs with hlink | hlink
  · have hle : scan (LowerBy (eMinus 9) c.layer) c.most ≤ c.most := scan_le _ _
    refine ⟨_, hle, chooseK_of_link hlink, fun j hj => ?_, fun j hj => ?_⟩
    · rw [layerMs_costAt hlink hle, layerMs_costAt hlink hj, ← WithTop.coe_add, WithTop.coe_le_coe]
      exact scan_le_add ((eMinus_pos 9).le) hj
    · rw [layerMs_costAt hlink hle, layerMs_costAt hlink (hj.le.trans hle), WithTop.coe_lt_coe]
      exact scan_lt ((eMinus_pos 9).le) hj
  · refine ⟨0, Nat.zero_le _, chooseK_of_no_link hlink, fun j hj => ?_, fun j hj => absurd hj (Nat.not_lt_zero j)⟩
    rw [layerMs_of_no_link hlink hj]
    exact le_top

end Costs

/-- `H100_SAFE8`. -/
def h100Safe8 : Constants ℚ := ⟨1264 / 1000, 1812 / 100, 1238 / 100, 97 / 10240, 524 / 10, 121 / 100, 38 / 1000, 0⟩

theorem chooseK_spec_h100 : (∃ k ≤ h100Safe8.most, h100Safe8.chooseK = h100Safe8.costAt k ∧
    (∀ j ≤ h100Safe8.most, (h100Safe8.costAt k).layerMs ≤ (h100Safe8.costAt j).layerMs + (eMinus 9 : ℚ)) ∧
    ∀ j < k, (h100Safe8.costAt k).layerMs < (h100Safe8.costAt j).layerMs) ∧ h100Safe8.chooseK.k = 4 :=
  ⟨chooseK_spec h100Safe8, by decide +kernel⟩

/-! ## A faster link -/

section Link

variable {c} [IsStrictOrderedRing α]

theorem Measured.reuse_nonneg (h : c.Measured) : 0 ≤ c.reuse := by
  unfold reuse
  split
  · next hd => exact div_nonneg h.unitsPerLayer hd.le
  · exact zero_le_one

omit [IsStrictOrderedRing α] [FloorRing α] in
theorem unitsLeft_nonneg (k : ℕ) : 0 ≤ c.unitsLeft k := le_max_right _ _

theorem Measured.unitsLeft_anti (h : c.Measured) {k j : ℕ} (hkj : k ≤ j) : c.unitsLeft j ≤ c.unitsLeft k := by
  have hmul : c.reuse * k ≤ c.reuse * j := mul_le_mul_of_nonneg_left (Nat.cast_le.2 hkj) h.reuse_nonneg
  unfold unitsLeft
  exact max_le_max_right 0 (sub_le_sub_left hmul _)

omit [FloorRing α] in
theorem Measured.cpuMsPerUnit_nonneg (h : c.Measured) : 0 ≤ c.cpuMsPerUnit := by
  unfold cpuMsPerUnit
  split
  · next hu => exact div_nonneg h.cpuMsPerLayer hu.le
  · exact le_rfl

omit [FloorRing α] in
theorem Measured.cpu_nonneg (h : c.Measured) (k : ℕ) : 0 ≤ c.cpu k := by
  have hunits : 0 ≤ c.cpuMsPerUnit * c.unitsLeft k := mul_nonneg h.cpuMsPerUnit_nonneg (unitsLeft_nonneg k)
  unfold cpu
  split
  · exact le_rfl
  · split
    · exact add_nonneg hunits h.fixedMsPerLayer
    · exact hunits

/-- The more is streamed the less the CPU has to do. -/
theorem Measured.cpu_anti (h : c.Measured) {k j : ℕ} (hkj : k ≤ j) : c.cpu j ≤ c.cpu k := by
  by_cases hj : 0 < (j : ℤ) ∧ c.unitsLeft j ≤ 0
  · have hzero : c.cpu j = 0 := if_pos hj
    rw [hzero]
    exact h.cpu_nonneg k
  · have hk : ¬ (0 < (k : ℤ) ∧ c.unitsLeft k ≤ 0) := fun hk =>
      hj ⟨by omega, (h.unitsLeft_anti hkj).trans hk.2⟩
    have hunits : c.cpuMsPerUnit * c.unitsLeft j ≤ c.cpuMsPerUnit * c.unitsLeft k :=
      mul_le_mul_of_nonneg_left (h.unitsLeft_anti hkj) h.cpuMsPerUnit_nonneg
    unfold cpu
    rw [if_neg hj, if_neg hk]
    split
    · exact add_le_add_left hunits _
    · exact hunits

theorem Measured.link_mono (h : c.Measured) (hlink : 0 < c.linkGbs) {k j : ℕ} (hkj : k ≤ j) : c.link k ≤ c.link j := by
  have hb := h.bytesPerExpertGb
  unfold link
  gcongr

theorem Measured.extra_mono (h : c.Measured) {k j : ℕ} (hkj : k ≤ j) : c.extra k ≤ c.extra j := by
  have hb := h.bytesPerExpertGb
  have hc := h.contentionMsPerGb
  have hg := h.gpuMsPerExpert
  unfold extra
  gcongr

/-- Where the link takes longer than the CPU, streaming more costs more. -/
theorem Measured.layer_rises (h : c.Measured) (hlink : 0 < c.linkGbs) {k j : ℕ} (hbound : c.cpu k ≤ c.link k)
    (hkj : k ≤ j) : c.layer k ≤ c.layer j := by
  unfold layer
  rw [max_eq_right hbound]
  exact add_le_add ((h.link_mono hlink hkj).trans (le_max_right ..)) (h.extra_mono hkj)

/-- The constants with another link. -/
def withLink (c : Constants α) (linkGbs : α) : Constants α := { c with linkGbs }

omit [IsStrictOrderedRing α] [FloorRing α] in
theorem Measured.withLink (h : c.Measured) (linkGbs : α) : (c.withLink linkGbs).Measured := ⟨h.1, h.2, h.3, h.4, h.5, h.6⟩

/-- A faster link costs no more. -/
theorem Measured.link_withLink_le (h : c.Measured) {l l' : α} (hl : 0 < l) (hle : l ≤ l') (k : ℕ) :
    (c.withLink l').link k ≤ (c.withLink l).link k := by
  have hgb : 0 ≤ k * c.bytesPerExpertGb := mul_nonneg k.cast_nonneg h.bytesPerExpertGb
  show k * c.bytesPerExpertGb / l' * (1000 : ℕ) ≤ k * c.bytesPerExpertGb / l * (1000 : ℕ)
  gcongr

omit [IsStrictOrderedRing α] in
theorem k_chooseK_nonneg (c : Constants α) : 0 ≤ c.chooseK.k := by
  rw [chooseK_eq_scan, k_costAt (scan_le _ _)]
  exact Int.natCast_nonneg _

/-- **A faster link never makes it stream less.** -/
theorem chooseK_link_mono (h : c.Measured) {l l' : α} (hle : l ≤ l') :
    (c.withLink l).chooseK.k ≤ (c.withLink l').chooseK.k := by
  rcases lt_or_ge 0 l with hl | hl
  · have hl' : 0 < (c.withLink l').linkGbs := hl.trans_le hle
    have hslack : (0 : α) ≤ eMinus 9 := (eMinus_pos 9).le
    rw [chooseK_of_link (c := c.withLink l) hl, chooseK_of_link hl', k_costAt (scan_le _ _), k_costAt (scan_le _ _)]
    have hcheaper : ∀ k, (c.withLink l').layer k ≤ (c.withLink l).layer k := fun k =>
      add_le_add_left (max_le_max_left _ (h.link_withLink_le hl hle k)) _
    -- as long as the CPU takes longer, the link makes no difference
    have hsame : ∀ k, (c.withLink l).link k ≤ c.cpu k → (c.withLink l).layer k = (c.withLink l').layer k := fun k hk =>
      congrArg (· + c.extra k) ((max_eq_left hk).trans (max_eq_left ((h.link_withLink_le hl hle k).trans hk)).symm)
    apply Int.ofNat_le.2
    by_cases hbound : ∃ k, c.cpu k ≤ (c.withLink l).link k
    · classical
      let first := Nat.find hbound
      have hfirst : c.cpu first ≤ (c.withLink l).link first := Nat.find_spec hbound
      have hbefore : ∀ k < first, (c.withLink l).link k ≤ c.cpu k := fun k hk => (not_le.1 (Nat.find_min hbound hk)).le
      have hlater : ∀ k, first ≤ k → c.cpu k ≤ (c.withLink l).link k := fun k hk =>
        (h.cpu_anti hk).trans (hfirst.trans ((h.withLink l).link_mono hl hk))
      apply scan_mono hslack (m := first - 1)
      · intro k hk
        rcases Nat.lt_or_ge k first with hlt | hge
        · exact hsame k (hbefore k hlt)
        · obtain rfl : k = 0 := by omega
          exact hsame 0 (by simpa [link] using h.cpu_nonneg 0)
      · exact hcheaper _
      · intro k hk
        exact (h.withLink l).layer_rises hl (hlater k (by omega)) (Nat.le_succ k)
    · push Not at hbound
      have hlayers : (c.withLink l).layer = (c.withLink l').layer := funext fun k => hsame k (hbound k).le
      rw [hlayers]
      exact le_rfl
  · have hzero : (c.withLink l).chooseK.k = 0 := by
      rw [chooseK_of_no_link hl]
      exact k_costAt (Nat.zero_le _)
    rw [hzero]
    exact k_chooseK_nonneg _

end Link

theorem h100Safe8_measured : h100Safe8.Measured := by
  constructor <;> decide +kernel

theorem chooseK_link_mono_h100 : (h100Safe8.withLink 6).chooseK.k ≤ (h100Safe8.withLink (524 / 10)).chooseK.k ∧
    (h100Safe8.withLink 6).chooseK.k = 0 :=
  ⟨chooseK_link_mono h100Safe8_measured (by decide +kernel), by decide +kernel⟩

/-! ## Where streaming begins to pay -/

section BreakEven

variable {c} [IsStrictOrderedRing α]

/-- The constants with another pole. -/
def withCpu (c : Constants α) (cpuMsPerLayer : α) : Constants α := { c with cpuMsPerLayer }

/-- Something is streamed exactly if some split is cheaper than none. -/
theorem chooseK_pos_iff (hlink : 0 < c.linkGbs) :
    0 < c.chooseK.k ↔ ∃ k, 1 ≤ k ∧ k ≤ c.most ∧ c.layer k + eMinus 9 < c.layer 0 := by
  rw [chooseK_of_link hlink, k_costAt (scan_le _ _), ← scan_pos_iff (eMinus_pos 9).le, Int.natCast_pos]

omit [IsStrictOrderedRing α] [FloorRing α] in
theorem unitsLeft_zero (hunits : 0 < c.unitsPerLayer) : c.unitsLeft 0 = c.unitsPerLayer := by
  simp [unitsLeft, hunits.le]

omit [IsStrictOrderedRing α] [FloorRing α] in
/-- What a layer costs without streaming. -/
theorem layer_zero (hunits : 0 < c.unitsPerLayer) : c.layer 0 =
    max (if 0 < c.cpuMsPerLayer then c.cpuMsPerLayer + c.fixedMsPerLayer else c.cpuMsPerLayer) 0 := by
  have hunit : c.cpuMsPerUnit * c.unitsLeft 0 = c.cpuMsPerLayer := by
    rw [unitsLeft_zero hunits, cpuMsPerUnit, if_pos hunits, div_mul_cancel₀ _ hunits.ne']
  have hcpu : c.cpu 0 = if 0 < c.cpuMsPerLayer then c.cpuMsPerLayer + c.fixedMsPerLayer else c.cpuMsPerLayer := by
    unfold cpu
    rw [if_neg (by simp), hunit]
  simp [layer, link, extra, hcpu]

theorem layer_withCpu_nonneg (h : c.Measured) (hlink : 0 < c.linkGbs) (x : α) (k : ℕ) : 0 ≤ (c.withCpu x).layer k := by
  have hl : 0 ≤ c.link k := by
    simpa [link] using h.link_mono hlink (Nat.zero_le k)
  have he : 0 ≤ c.extra k := by
    simpa [extra] using h.extra_mono (Nat.zero_le k)
  exact add_nonneg (hl.trans (le_max_right ..)) he

/-- More work on the CPU raises the cost of a split by no more than itself. -/
theorem layer_withCpu_le (h : c.Measured) (hunits : 0 < c.unitsPerLayer) {x y : α} (hx : 0 < x) (hxy : x ≤ y) (k : ℕ) :
    (c.withCpu y).layer k ≤ (c.withCpu x).layer k + (y - x) := by
  have hleft : c.unitsLeft k ≤ c.unitsPerLayer := unitsLeft_zero hunits ▸ h.unitsLeft_anti (Nat.zero_le k)
  have hshare : (y - x) / c.unitsPerLayer * c.unitsLeft k ≤ y - x := by
    have hmul := mul_le_mul_of_nonneg_left hleft (div_nonneg (sub_nonneg.2 hxy) hunits.le)
    rwa [div_mul_cancel₀ _ hunits.ne'] at hmul
  have hcpu : (c.withCpu y).cpu k ≤ (c.withCpu x).cpu k + (y - x) := by
    show (if 0 < (k : ℤ) ∧ c.unitsLeft k ≤ 0 then 0 else if 0 < y then (c.withCpu y).cpuMsPerUnit * c.unitsLeft k +
        c.fixedMsPerLayer else (c.withCpu y).cpuMsPerUnit * c.unitsLeft k) ≤
      (if 0 < (k : ℤ) ∧ c.unitsLeft k ≤ 0 then 0 else if 0 < x then (c.withCpu x).cpuMsPerUnit * c.unitsLeft k +
        c.fixedMsPerLayer else (c.withCpu x).cpuMsPerUnit * c.unitsLeft k) + (y - x)
    rw [if_pos hx, if_pos (hx.trans_le hxy)]
    split
    · linarith
    · have hsplit : y / c.unitsPerLayer * c.unitsLeft k =
          x / c.unitsPerLayer * c.unitsLeft k + (y - x) / c.unitsPerLayer * c.unitsLeft k := by ring
      have hunit : ∀ z, (c.withCpu z).cpuMsPerUnit = z / c.unitsPerLayer := fun z => if_pos hunits
      rw [hunit x, hunit y]
      linarith
  have hlink : (c.withCpu y).link k ≤ (c.withCpu x).link k + (y - x) := le_add_of_nonneg_right (sub_nonneg.2 hxy)
  have hmax : max ((c.withCpu y).cpu k) ((c.withCpu y).link k) ≤
      max ((c.withCpu x).cpu k) ((c.withCpu x).link k) + (y - x) := by
    rw [← max_add_add_right]
    exact max_le_max hcpu hlink
  have hextra : (c.withCpu y).extra k = (c.withCpu x).extra k := rfl
  unfold layer
  rw [hextra]
  linarith

/-- With no work on the CPU there is nothing to gain. -/
theorem k_of_no_cpu (h : c.Measured) (hlink : 0 < c.linkGbs) (hunits : 0 < c.unitsPerLayer) {x : α} (hx : x ≤ 0) :
    ¬ 0 < (c.withCpu x).chooseK.k := by
  intro hpos
  obtain ⟨k, -, -, hlt⟩ := (chooseK_pos_iff (c := c.withCpu x) hlink).1 hpos
  have hzero : (c.withCpu x).layer 0 = 0 := by
    rw [layer_zero (c := c.withCpu x) hunits]
    show max (if 0 < x then x + c.fixedMsPerLayer else x) 0 = 0
    rw [if_neg (not_lt.2 hx), max_eq_right hx]
  have hslack : (0 : α) < eMinus 9 := eMinus_pos 9
  have hnonneg := layer_withCpu_nonneg h hlink x k
  rw [hzero] at hlt
  linarith

/-- Where streaming pays it goes on to pay with more work on the CPU. -/
theorem chooseK_pos_mono (h : c.Measured) (hlink : 0 < c.linkGbs) (hunits : 0 < c.unitsPerLayer) {x y : α} (hxy : x ≤ y)
    (hpos : 0 < (c.withCpu x).chooseK.k) : 0 < (c.withCpu y).chooseK.k := by
  have hx : 0 < x := not_le.1 fun hx => k_of_no_cpu h hlink hunits hx hpos
  have hy : 0 < y := hx.trans_le hxy
  obtain ⟨k, hk, hkmost, hlt⟩ := (chooseK_pos_iff (c := c.withCpu x) hlink).1 hpos
  refine (chooseK_pos_iff (c := c.withCpu y) hlink).2 ⟨k, hk, hkmost, ?_⟩
  have hfirst : ∀ z, 0 < z → (c.withCpu z).layer 0 = z + c.fixedMsPerLayer := fun z hz => by
    rw [layer_zero (c := c.withCpu z) hunits]
    show max (if 0 < z then z + c.fixedMsPerLayer else z) 0 = _
    rw [if_pos hz, max_eq_left (add_nonneg hz.le h.fixedMsPerLayer)]
  have hle := layer_withCpu_le h hunits hx hxy k
  rw [hfirst x hx] at hlt
  rw [hfirst y hy]
  linarith

theorem pyRound_nonpos {x : α} (hx : x ≤ 0) : pyRound x ≤ 0 := by
  rcases hx.eq_or_lt with rfl | hneg
  · simp [pyRound]
  · have hfloor : ⌊x⌋ < 0 := Int.floor_lt.2 (by simpa using hneg)
    unfold pyRound
    split
    · exact hfloor.le
    · split
      · exact hfloor
      · split
        · exact hfloor.le
        · exact hfloor

/-- **Where streaming begins to pay.** If there is a break-even point below the bound, streaming pays from there on, and
not at less than it by the last step of the bisection; if there is none, it pays nowhere below the bound. -/
theorem breakEven_spec (h : c.Measured) {hi : α} (hhi : 0 ≤ hi) :
    (∀ t, c.breakEven hi = some t → 0 < t ∧ t ≤ hi ∧ (∀ x, t ≤ x → 0 < (c.withCpu x).chooseK.k) ∧
      ∀ x, x ≤ t - hi / 2 ^ 60 → (c.withCpu x).chooseK.k = 0) ∧
    (c.breakEven hi = none → c.unitsPerLayer = 0 ∨ ∀ x ≤ hi, (c.withCpu x).chooseK.k = 0) := by
  have hzero : ∀ x, ¬ 0 < (c.withCpu x).chooseK.k → (c.withCpu x).chooseK.k = 0 := fun x hnot =>
    Int.le_antisymm (not_lt.1 hnot) (k_chooseK_nonneg _)
  unfold breakEven
  by_cases hnone : c.linkGbs ≤ 0 ∨ c.distinctPerLayer ≤ 0 ∨ c.unitsPerLayer ≤ 0
  · rw [if_pos hnone]
    refine ⟨fun t ht => (nomatch ht), fun _ => ?_⟩
    rcases hnone with hlink | hdistinct | hunits
    · refine .inr fun x _ => ?_
      rw [chooseK_of_no_link (c := c.withCpu x) hlink]
      exact k_costAt (Nat.zero_le _)
    · refine .inr fun x _ => ?_
      have hmost : (c.withCpu x).most = 0 := Int.toNat_eq_zero.2 (pyRound_nonpos hdistinct)
      rw [chooseK_eq_scan, hmost]
      exact k_costAt (Nat.zero_le _)
    · exact .inl (le_antisymm hunits h.unitsPerLayer)
  · rw [if_neg hnone]
    push Not at hnone
    obtain ⟨hlink, -, hunits⟩ := hnone
    by_cases hstop : (c.withCpu hi).chooseK.k = 0
    · have hnever : ∀ x ≤ hi, (c.withCpu x).chooseK.k = 0 := fun x hx => hzero x fun hpos =>
        (chooseK_pos_mono h hlink hunits hx hpos).ne' hstop
      simp only [withCpu] at hstop
      rw [if_pos hstop]
      exact ⟨fun t ht => (nomatch ht), fun _ => .inr hnever⟩
    · have hpays : 0 < (c.withCpu hi).chooseK.k := lt_of_le_of_ne (k_chooseK_nonneg _) (Ne.symm hstop)
      have hmono : ∀ x y, x ≤ y → 0 < (c.withCpu x).chooseK.k → 0 < (c.withCpu y).chooseK.k := fun x y hxy =>
        chooseK_pos_mono h hlink hunits hxy
      have hstart : ¬ 0 < (c.withCpu 0).chooseK.k := k_of_no_cpu h hlink hunits le_rfl
      obtain ⟨hlo, hle, hup, -, hend, -⟩ := bisect_spec (fun x => 0 < (c.withCpu x).chooseK.k) hhi hstart hpays 60
      obtain ⟨hfrom, hbelow⟩ := bisect_threshold (fun x => 0 < (c.withCpu x).chooseK.k) hmono hhi hstart hpays 60
      simp only [withCpu] at hstop
      rw [if_neg hstop]
      refine ⟨fun t ht => ?_, fun hnone => nomatch hnone⟩
      obtain rfl := Option.some.inj ht
      refine ⟨lt_of_le_of_ne (hlo.trans hle) fun heq => hstart ?_, hup, hfrom, fun x hx => hzero x (hbelow x ?_)⟩
      · rw [heq]
        exact hend
      · rwa [sub_zero]

end BreakEven

theorem breakEven_spec_h100 :
    (∀ t, h100Safe8.breakEven 10000 = some t → 0 < t ∧ t ≤ 10000 ∧
      (∀ x, t ≤ x → 0 < (h100Safe8.withCpu x).chooseK.k) ∧
      ∀ x, x ≤ t - 10000 / 2 ^ 60 → (h100Safe8.withCpu x).chooseK.k = 0) ∧
    (h100Safe8.breakEven 10000 = none →
      h100Safe8.unitsPerLayer = 0 ∨ ∀ x ≤ 10000, (h100Safe8.withCpu x).chooseK.k = 0) :=
  breakEven_spec h100Safe8_measured (by norm_num)

/-- Three experts of one unit each, with transfers that cost only the time of the GPU. -/
def ties : Constants ℚ := ⟨3, 3, 3, 0, 1, 0, 1, 0⟩

/-- That it streams at all is monotone in the work of the CPU, the number it streams is not: with the slack of the
comparison the last of several equal gains can be missed. -/
theorem chooseK_cpu_drops :
    ∃ x y, x ≤ y ∧ (ties.withCpu x).chooseK.k = 3 ∧ (ties.withCpu y).chooseK.k = 2 :=
  ⟨3 * (1 + 4 / 10 ^ 10), 3 * (1 + 6 / 10 ^ 10), by decide +kernel, by decide +kernel, by decide +kernel⟩

end Constants

end ExpertServe.HybridSplit
