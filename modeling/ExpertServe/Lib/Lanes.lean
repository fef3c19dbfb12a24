import ExpertServe.Lib.Nibble
import Mathlib.Algebra.BigOperators.Fin
import Mathlib.Algebra.BigOperators.Intervals
import Mathlib.Algebra.Order.BigOperators.Group.Finset
import Mathlib.Algebra.Order.Ring.Abs
import Mathlib.Data.UInt
import Mathlib.Tactic.FinCases
import Mathlib.Tactic.Linarith

/-!
# Registers of lanes

The vector instructions of an integer dot product: nibbles unpacked out of bytes, products of unsigned by signed bytes
summed four at a time into lanes of 32 bits, and the sum of the lanes. All arithmetic wraps; a register is exact when it
holds the integer it would without wrapping.

* `accumulate_toInt`: a sum of bounded terms is exact, at every step;
* `dpProduct_toInt`: a product of two bytes fits 16 bits;
* `Lanes.dpbusd_accumulate`: the lanes after some steps, as running sums of products;
* `Lanes.HsumExact`, `Lanes.hsum_exact`: the sum of the lanes, with every intermediate sum exact.
-/

namespace ExpertServe.Lib

/-! ## Running sums -/

theorem toInt_add_of_bounds {w : ℕ} {x y : BitVec w} (h : -2 ^ (w - 1) ≤ x.toInt + y.toInt)
    (h' : x.toInt + y.toInt < 2 ^ (w - 1)) : (x + y).toInt = x.toInt + y.toInt := by
  apply BitVec.toInt_add_of_not_saddOverflow
  simp [BitVec.saddOverflow, h, h']

theorem toInt_sub_of_bounds {w : ℕ} {x y : BitVec w} (h : -2 ^ (w - 1) ≤ x.toInt - y.toInt)
    (h' : x.toInt - y.toInt < 2 ^ (w - 1)) : (x - y).toInt = x.toInt - y.toInt := by
  apply BitVec.toInt_sub_of_not_ssubOverflow
  simp [BitVec.ssubOverflow, h, h']

/-- The first `t` terms added up in one register. -/
def accumulate {w : ℕ} (terms : ℕ → BitVec w) (t : ℕ) : BitVec w := (List.range t).foldl (fun acc s => acc + terms s) 0

theorem accumulate_succ {w : ℕ} (terms : ℕ → BitVec w) (t : ℕ) :
    accumulate terms (t + 1) = accumulate terms t + terms t := by
  unfold accumulate
  rw [List.range_succ, List.foldl_append, List.foldl_cons, List.foldl_nil]

theorem abs_sum_le {f : ℕ → ℤ} {B : ℤ} {t : ℕ} (hB : ∀ s < t, |f s| ≤ B) : |∑ s ∈ Finset.range t, f s| ≤ t * B := by
  calc |∑ s ∈ Finset.range t, f s| ≤ ∑ s ∈ Finset.range t, |f s| := Finset.abs_sum_le_sum_abs _ _
    _ ≤ ∑ _s ∈ Finset.range t, B := Finset.sum_le_sum fun s hs => hB s (Finset.mem_range.mp hs)
    _ = t * B := by simp

/-- **Exact running sums.** -/
theorem accumulate_toInt {w : ℕ} {terms : ℕ → BitVec w} {B : ℤ} {t : ℕ}
    (hB : ∀ s < t, |(terms s).toInt| ≤ B) (ht : t * B < 2 ^ (w - 1)) :
    (accumulate terms t).toInt = ∑ s ∈ Finset.range t, (terms s).toInt := by
  induction t with
  | zero => simp [accumulate]
  | succ t ih =>
    have hterm := hB t (Nat.lt_succ_self t)
    have hB0 : 0 ≤ B := (abs_nonneg _).trans hterm
    have hsum := abs_le.mp (abs_sum_le hB)
    rw [Finset.sum_range_succ] at hsum ⊢
    push_cast at ht hsum
    have hprev := ih (fun s hs => hB s (Nat.lt_succ_of_lt hs)) (by linarith)
    rw [accumulate_succ, toInt_add_of_bounds, hprev] <;> rw [hprev] <;> linarith

/-! ## Bytes -/

/-- A product of an unsigned byte and a signed one, in 16 bits. -/
def dpProduct (a b : BitVec 8) : BitVec 16 := a.zeroExtend 16 * b.signExtend 16

theorem abs_dpProduct_le (a b : BitVec 8) : |(a.toNat : ℤ) * b.toInt| ≤ 32640 := by
  have ha := a.isLt
  have hb := BitVec.le_toInt b
  have hb' := BitVec.toInt_lt (x := b)
  norm_num at hb hb'
  rw [abs_mul, abs_of_nonneg (Int.natCast_nonneg _)]
  have hbb : |b.toInt| ≤ 128 := abs_le.mpr ⟨by linarith, by linarith⟩
  have haa : (a.toNat : ℤ) ≤ 255 := by omega
  calc (a.toNat : ℤ) * |b.toInt| ≤ 255 * 128 := mul_le_mul haa hbb (abs_nonneg _) (by norm_num)
    _ = 32640 := by norm_num

/-- **A product of bytes fits.** -/
theorem dpProduct_toInt (a b : BitVec 8) : (dpProduct a b).toInt = a.toNat * b.toInt := by
  have habs := abs_le.mp (abs_dpProduct_le a b)
  have hzero : (a.zeroExtend 16).toInt = a.toNat := by
    have ha := a.isLt
    rw [BitVec.toInt_eq_toNat_of_lt (by simp; omega)]
    simp
    omega
  have hsign : (b.signExtend 16).toInt = b.toInt := BitVec.toInt_signExtend_of_le (by decide)
  have hprod : dpProduct a b = BitVec.ofInt 16 (a.toNat * b.toInt) := by
    rw [BitVec.ofInt_mul, ← hzero, ← hsign, BitVec.ofInt_toInt, BitVec.ofInt_toInt]
    rfl
  rw [hprod]
  exact BitVec.toInt_ofInt_eq_self (by decide) (by norm_num; linarith) (by norm_num; linarith)

/-! ## Lanes -/

/-- A register of `n` lanes of `w` bits. -/
abbrev Lanes (n w : ℕ) := Fin n → BitVec w

namespace Lanes

/-- `loadu_si128` and `load_si256`. -/
def load (n : ℕ) (p : ℕ → UInt8) : Lanes n 8 := fun i => (p i).toBitVec

def set1 (n : ℕ) (b : BitVec 8) : Lanes n 8 := fun _ => b

def and {n : ℕ} (x y : Lanes n 8) : Lanes n 8 := fun i => x i &&& y i

def xor {n : ℕ} (x y : Lanes n 8) : Lanes n 8 := fun i => x i ^^^ y i

def sub {n : ℕ} (x y : Lanes n 8) : Lanes n 8 := fun i => x i - y i

/-- `srli_epi16`: pairs of bytes shifted as words of 16 bits. -/
def srli16 (x : Lanes 16 8) (c : ℕ) : Lanes 16 8 := fun i =>
  let word : BitVec 16 := x ⟨2 * (i / 2) + 1, by omega⟩ ++ x ⟨2 * (i / 2), by omega⟩
  (word >>> c).extractLsb' (8 * (i % 2)) 8

def unpacklo8 (x y : Lanes 16 8) : Lanes 16 8 := fun i =>
  if i.1 % 2 = 0 then x ⟨i / 2, by omega⟩ else y ⟨i / 2, by omega⟩

def unpackhi8 (x y : Lanes 16 8) : Lanes 16 8 := fun i =>
  if i.1 % 2 = 0 then x ⟨8 + i / 2, by omega⟩ else y ⟨8 + i / 2, by omega⟩

/-- `set_m128i`, the high half first. -/
def setM128 (hi lo : Lanes 16 8) : Lanes 32 8 := fun i =>
  if h : i.1 < 16 then lo ⟨i, h⟩ else hi ⟨i - 16, by omega⟩

/-- `dpbusd_epi32`: four products of unsigned by signed bytes to each lane, without saturation. -/
def dpbusd (acc : Lanes 8 32) (a b : Lanes 32 8) : Lanes 8 32 := fun l =>
  let product (j : Fin 4) : BitVec 32 := (dpProduct (a ⟨4 * l + j, by omega⟩) (b ⟨4 * l + j, by omega⟩)).signExtend 32
  acc l + product 0 + product 1 + product 2 + product 3

def add {n : ℕ} (x y : Lanes n 32) : Lanes n 32 := fun i => x i + y i

/-- `hadd_epi32`. -/
def hadd (x y : Lanes 4 32) : Lanes 4 32 := ![x 0 + x 1, x 2 + x 3, y 0 + y 1, y 2 + y 3]

def castLow (v : Lanes 8 32) : Lanes 4 32 := fun i => v ⟨i, by omega⟩

def extractHigh (v : Lanes 8 32) : Lanes 4 32 := fun i => v ⟨4 + i, by omega⟩

def halfSums (v : Lanes 8 32) : Lanes 4 32 := add (castLow v) (extractHigh v)

def pairSums (v : Lanes 8 32) : Lanes 4 32 := hadd (halfSums v) (halfSums v)

def totalSums (v : Lanes 8 32) : Lanes 4 32 := hadd (pairSums v) (pairSums v)

/-- The sum of the lanes, by halves and two horizontal additions. -/
def hsum (v : Lanes 8 32) : BitVec 32 := totalSums v 0

/-! ### Nibbles out of bytes -/

theorem low_nibble (b : UInt8) : (b.toBitVec &&& 0x0F#8).toNat = nibble b 0 := mask_low b

theorem append_toNat (hi lo : BitVec 8) : (hi ++ lo).toNat = hi.toNat * 256 + lo.toNat := by
  rw [BitVec.toNat_append, ← Nat.shiftLeft_add_eq_or_of_lt lo.isLt, Nat.shiftLeft_eq]

/-- Shifting a pair of bytes and masking gives the high nibble of either, whatever the other. -/
theorem high_nibble (x : Lanes 16 8) (i : Fin 16) : srli16 x 4 i &&& 0x0F#8 = x i >>> 4 := by
  have hmask : (0x0F#8).toNat = 2 ^ 4 - 1 := by decide
  have hhalf : ∀ hi lo : BitVec 8, ((hi ++ lo) >>> 4).extractLsb' 0 8 &&& 0x0F#8 = lo >>> 4 ∧
      ((hi ++ lo) >>> 4).extractLsb' 8 8 &&& 0x0F#8 = hi >>> 4 := by
    intro hi lo
    have hhi := hi.isLt
    have hlo := lo.isLt
    constructor <;> apply BitVec.eq_of_toNat_eq <;>
      rw [BitVec.toNat_and, hmask, Nat.and_two_pow_sub_one_eq_mod, BitVec.extractLsb'_toNat, BitVec.toNat_ushiftRight,
        append_toNat, BitVec.toNat_ushiftRight, Nat.shiftRight_eq_div_pow, Nat.shiftRight_eq_div_pow,
        Nat.shiftRight_eq_div_pow] <;> omega
  unfold srli16
  rcases Nat.mod_two_eq_zero_or_one i with hi | hi
  · have hplace : (⟨2 * (i / 2), by omega⟩ : Fin 16) = i := Fin.ext (by simp; omega)
    simp only [hi, Nat.mul_zero]
    rw [(hhalf _ _).1, hplace]
  · have hplace : (⟨2 * (i / 2) + 1, by omega⟩ : Fin 16) = i := Fin.ext (by simp; omega)
    simp only [hi, Nat.mul_one]
    rw [(hhalf _ _).2, hplace]

theorem shifted_nibble (b : UInt8) : (b.toBitVec >>> 4).toNat = nibble b 1 := by
  rw [nibble_one, BitVec.toNat_ushiftRight, Nat.shiftRight_eq_div_pow]
  rfl

/-- Flipping bit 3 and subtracting 8 reads a nibble in two's complement. -/
theorem flip_sub_toInt {v : BitVec 8} (h : v.toNat < 16) : ((v ^^^ 8#8) - 8#8).toInt = signed4 v.toNat := by
  revert v
  decide +kernel

/-- **Interleaving.** The low and high unpacked halves together are the two registers lane by lane. -/
theorem setM128_unpack (x y : Lanes 16 8) (i : Fin 32) : setM128 (unpackhi8 x y) (unpacklo8 x y) i =
    if i.1 % 2 = 0 then x ⟨i / 2, by omega⟩ else y ⟨i / 2, by omega⟩ := by
  unfold setM128
  split
  · rfl
  · next hi =>
    have hparity : (i.1 - 16) % 2 = i.1 % 2 := by omega
    have hplace : 8 + (i.1 - 16) / 2 = i.1 / 2 := by omega
    show (if (i.1 - 16) % 2 = 0 then x ⟨8 + (i.1 - 16) / 2, _⟩ else y ⟨8 + (i.1 - 16) / 2, _⟩) = _
    simp only [hparity, hplace]

/-! ### The dot product -/

section Dot

variable (a b : ℕ → BitVec 8)

/-- 32 bytes of a row. -/
def chunk (x : ℕ → BitVec 8) (c : ℕ) : Lanes 32 8 := fun i => x (32 * c + i)

/-- The accumulator after `n` chunks. -/
def dotSteps (n : ℕ) : Lanes 8 32 := (List.range n).foldl (fun acc c => dpbusd acc (chunk a c) (chunk b c)) fun _ => 0

/-- The place of term `s` of lane `l`: four in a row out of every 32 bytes. -/
def lanePlace (l s : ℕ) : ℕ := 32 * (s / 4) + 4 * l + s % 4

/-- The products lane `l` adds up, in order. -/
def laneTerm (l s : ℕ) : BitVec 32 := (dpProduct (a (lanePlace l s)) (b (lanePlace l s))).signExtend 32

/-- The integer a product stands for. -/
def term (k : ℕ) : ℤ := (a k).toNat * (b k).toInt

theorem laneTerm_toInt (l s : ℕ) : (laneTerm a b l s).toInt = term a b (lanePlace l s) := by
  unfold laneTerm term
  rw [BitVec.toInt_signExtend_of_le (by decide), dpProduct_toInt]

theorem lanePlace_four (l n : ℕ) {j : ℕ} (hj : j < 4) : lanePlace l (4 * n + j) = 32 * n + (4 * l + j) := by
  unfold lanePlace
  omega

/-- **The lanes after some chunks** are running sums of products. -/
theorem dotSteps_eq (n : ℕ) (l : Fin 8) : dotSteps a b n l = accumulate (laneTerm a b l) (4 * n) := by
  induction n with
  | zero => rfl
  | succ n ih =>
    have hstep : dotSteps a b (n + 1) = dpbusd (dotSteps a b n) (chunk a n) (chunk b n) := by
      unfold dotSteps
      rw [List.range_succ, List.foldl_append, List.foldl_cons, List.foldl_nil]
    have hterm : ∀ j (hj : j < 4), laneTerm a b l (4 * n + j) =
        (dpProduct (chunk a n ⟨4 * l + j, by omega⟩) (chunk b n ⟨4 * l + j, by omega⟩)).signExtend 32 := by
      intro j hj
      unfold laneTerm chunk
      rw [lanePlace_four _ _ hj]
    rw [hstep, Nat.mul_succ, accumulate_succ _ (4 * n + 3), accumulate_succ _ (4 * n + 2), accumulate_succ _ (4 * n + 1),
      accumulate_succ _ (4 * n), ← ih, hterm 3 (by decide), hterm 2 (by decide), hterm 1 (by decide)]
    rw [show laneTerm a b l (4 * n) = laneTerm a b l (4 * n + 0) from rfl, hterm 0 (by decide)]
    rfl

/-- Every running sum of a lane is exact. -/
theorem laneSum_toInt (l : ℕ) {t : ℕ} (ht : t ≤ 65000) :
    (accumulate (laneTerm a b l) t).toInt = ∑ s ∈ Finset.range t, term a b (lanePlace l s) := by
  have hbound : ∀ s < t, |(laneTerm a b l s).toInt| ≤ 32640 := fun s _ => by
    rw [laneTerm_toInt]
    exact abs_dpProduct_le _ _
  rw [accumulate_toInt hbound (by norm_num; omega)]
  exact Finset.sum_congr rfl fun s _ => laneTerm_toInt a b l s

/-- All lanes together have all the terms. -/
theorem sum_lanes (f : ℕ → ℤ) (n : ℕ) :
    ∑ l : Fin 8, ∑ s ∈ Finset.range (4 * n), f (lanePlace l s) = ∑ k ∈ Finset.range (32 * n), f k := by
  induction n with
  | zero => simp
  | succ n ih =>
    have hchunk : ∑ l : Fin 8, ∑ j ∈ Finset.range 4, f (lanePlace l (4 * n + j)) =
        ∑ i ∈ Finset.range 32, f (32 * n + i) := by
      calc ∑ l : Fin 8, ∑ j ∈ Finset.range 4, f (lanePlace l (4 * n + j))
          = ∑ l : Fin 8, ∑ j ∈ Finset.range 4, f (32 * n + (4 * l + j)) :=
            Finset.sum_congr rfl fun l _ => Finset.sum_congr rfl fun j hj => by
              rw [lanePlace_four _ _ (Finset.mem_range.mp hj)]
        _ = ∑ l ∈ Finset.range 8, ∑ j ∈ Finset.range 4, f (32 * n + (4 * l + j)) :=
            Fin.sum_univ_eq_sum_range (fun l => ∑ j ∈ Finset.range 4, f (32 * n + (4 * l + j))) 8
        _ = ∑ i ∈ Finset.range 32, f (32 * n + i) := by
            simp only [Finset.sum_range_succ, Finset.sum_range_zero]
            ring_nf
    have hsplit : ∀ l : Fin 8, ∑ s ∈ Finset.range (4 * (n + 1)), f (lanePlace l s) =
        ∑ s ∈ Finset.range (4 * n), f (lanePlace l s) + ∑ j ∈ Finset.range 4, f (lanePlace l (4 * n + j)) :=
      fun l => Finset.sum_range_add _ _ _
    rw [Finset.sum_congr rfl fun l _ => hsplit l, Finset.sum_add_distrib, ih, hchunk, Nat.mul_succ,
      Finset.sum_range_add]

end Dot

/-! ### The sum of the lanes -/

/-- Every sum on the way to the sum of the lanes is exact: of the halves, of their neighbours, and of these. -/
structure HsumExact (v : Lanes 8 32) : Prop where
  half : ∀ i, (halfSums v i).toInt = (castLow v i).toInt + (extractHigh v i).toInt
  pair : ∀ i, (pairSums v i).toInt =
    ![(halfSums v 0).toInt + (halfSums v 1).toInt, (halfSums v 2).toInt + (halfSums v 3).toInt,
      (halfSums v 0).toInt + (halfSums v 1).toInt, (halfSums v 2).toInt + (halfSums v 3).toInt] i
  total : ∀ i, (totalSums v i).toInt = ∑ l, (v l).toInt

/-- One horizontal addition of bounded lanes is exact. -/
theorem hadd_toInt {v : Lanes 4 32} {B : ℤ} (hv : ∀ i, |(v i).toInt| ≤ B) (hB : 2 * B < 2 ^ 31) (i : Fin 4) :
    (hadd v v i).toInt = ![(v 0).toInt + (v 1).toInt, (v 2).toInt + (v 3).toInt, (v 0).toInt + (v 1).toInt,
      (v 2).toInt + (v 3).toInt] i := by
  have hsum : ∀ i j : Fin 4, (v i + v j).toInt = (v i).toInt + (v j).toInt := by
    intro i j
    have hi := abs_le.mp (hv i)
    have hj := abs_le.mp (hv j)
    exact toInt_add_of_bounds (by norm_num; omega) (by norm_num; omega)
  fin_cases i <;> exact hsum _ _

/-- **The sum of the lanes** is exact where eight times the largest lane fits. -/
theorem hsum_exact {v : Lanes 8 32} {B : ℤ} (hv : ∀ l, |(v l).toInt| ≤ B) (hB : 8 * B < 2 ^ 31) : HsumExact v := by
  have hB0 : 0 ≤ B := (abs_nonneg _).trans (hv 0)
  have hhalf : ∀ i, (halfSums v i).toInt = (castLow v i).toInt + (extractHigh v i).toInt := by
    intro i
    have hlo := abs_le.mp (hv ⟨i, by omega⟩)
    have hhi := abs_le.mp (hv ⟨4 + i, by omega⟩)
    exact toInt_add_of_bounds (by norm_num; unfold castLow extractHigh; omega)
      (by norm_num; unfold castLow extractHigh; omega)
  have hhalfle : ∀ i, |(halfSums v i).toInt| ≤ 2 * B := by
    intro i
    rw [hhalf]
    have hlo := hv ⟨i, by omega⟩
    have hhi := hv ⟨4 + i, by omega⟩
    exact (abs_add_le _ _).trans (by unfold castLow extractHigh; omega)
  have hpair := hadd_toInt hhalfle (by omega)
  have hpairle : ∀ i, |(pairSums v i).toInt| ≤ 4 * B := by
    intro i
    have h0 := abs_le.mp (hhalfle 0)
    have h1 := abs_le.mp (hhalfle 1)
    have h2 := abs_le.mp (hhalfle 2)
    have h3 := abs_le.mp (hhalfle 3)
    unfold pairSums
    rw [hpair i, abs_le]
    fin_cases i <;> simp <;> omega
  refine ⟨hhalf, hpair, fun i => ?_⟩
  have htotal := hadd_toInt hpairle (by omega) i
  have hp := fun i => (congrArg BitVec.toInt (rfl : pairSums v i = hadd (halfSums v) (halfSums v) i)).trans (hpair i)
  have hall : (pairSums v 0).toInt + (pairSums v 1).toInt = ∑ l, (v l).toInt := by
    rw [hp 0, hp 1]
    simp only [Matrix.cons_val, hhalf, Fin.sum_univ_eight]
    show (v 0).toInt + (v 4).toInt + ((v 1).toInt + (v 5).toInt) +
      ((v 2).toInt + (v 6).toInt + ((v 3).toInt + (v 7).toInt)) = _
    ring
  -- the second half of the pairs repeats the first
  refine htotal.trans ?_
  fin_cases i <;> exact hall

end Lanes

end ExpertServe.Lib
