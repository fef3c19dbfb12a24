import Mathlib.Algebra.BigOperators.Ring.Finset
import Mathlib.Data.Nat.Digits.Defs
import Mathlib.Data.UInt
import Mathlib.Tactic.Common

/-!
# Nibbles

Two nibbles make a byte and eight a word, the low one first. A nibble stands for a signed number in two ways: in two's
complement, and with a bias of 8, which flipping bit 3 exchanges.

* `mask_low`, `mask_high`: the masks that read them;
* `nibble_flip`, `flip_bias`: flipping bit 3 of both nibbles of a byte;
* `sum_biased`: the two readings of many nibbles, summed up;
* `byte_ext`, `word_ext`: bytes and words with the same nibbles are the same;
* `wordNibble_leWord`, `wordNibble_packed`: the nibbles of four bytes in a row, and of eight nibbles or-ed together.
-/

namespace ExpertServe.Lib

/-! ## Bytes -/

/-- Nibble `i` of a byte. -/
def nibble (b : UInt8) (i : ℕ) : ℕ := b.toNat / 16 ^ i % 16

/-- The value of a nibble in two's complement. -/
def signed4 (n : ℕ) : ℤ := if n < 8 then n else n - 16

theorem nibble_lt (b : UInt8) (i : ℕ) : nibble b i < 16 := Nat.mod_lt _ (by decide)

theorem nibble_zero (b : UInt8) : nibble b 0 = b.toNat % 16 := by
  rw [nibble, pow_zero, Nat.div_one]

theorem nibble_one (b : UInt8) : nibble b 1 = b.toNat / 16 := by
  have hlt := b.toNat_lt
  rw [nibble, pow_one]
  omega

/-- `b & 0x0F`. -/
theorem mask_low (b : UInt8) : (b &&& 0x0F).toNat = nibble b 0 := by
  rw [nibble_zero, UInt8.toNat_and, show (0x0F : UInt8).toNat = 2 ^ 4 - 1 by decide, Nat.and_two_pow_sub_one_eq_mod]

/-- `(b >> 4) & 0x0F`. -/
theorem mask_high (b : UInt8) : ((b >>> 4) &&& 0x0F).toNat = nibble b 1 := by
  have hlt := b.toNat_lt
  rw [nibble_one, UInt8.toNat_and, show (0x0F : UInt8).toNat = 2 ^ 4 - 1 by decide, Nat.and_two_pow_sub_one_eq_mod,
    UInt8.toNat_shiftRight, show (4 : UInt8).toNat % 8 = 4 by decide, Nat.shiftRight_eq_div_pow]
  omega

theorem byte_ext {b c : UInt8} (h : ∀ i < 2, nibble b i = nibble c i) : b = c := by
  have hlo := h 0 (by decide)
  have hhi := h 1 (by decide)
  rw [nibble_zero, nibble_zero] at hlo
  rw [nibble_one, nibble_one] at hhi
  apply UInt8.toNat_inj.mp
  omega

/-- Two's complement fits four bits. -/
theorem signed4_mem {n : ℕ} (h : n < 16) : -8 ≤ signed4 n ∧ signed4 n ≤ 7 := by
  unfold signed4
  split <;> omega

theorem signed4_inj {m n : ℕ} (hm : m < 16) (hn : n < 16) (h : signed4 m = signed4 n) : m = n := by
  unfold signed4 at h
  split at h <;> split at h <;> omega

/-- Flipping bit 3 of both nibbles adds 8 to each, modulo 16. -/
theorem nibble_flip (b : UInt8) {i : ℕ} (h : i < 2) : nibble (b ^^^ 0x88) i = (nibble b i + 8) % 16 := by
  have hflip : ∀ v : BitVec 8, (v ^^^ 0x88#8).toNat % 16 = (v.toNat % 16 + 8) % 16 ∧
      (v ^^^ 0x88#8).toNat / 16 = (v.toNat / 16 + 8) % 16 := by decide +kernel
  have hb := hflip b.toBitVec
  match i, h with
  | 0, _ =>
    rw [nibble_zero, nibble_zero]
    exact hb.1
  | 1, _ =>
    rw [nibble_one, nibble_one]
    exact hb.2

/-- A flipped nibble read with the bias is the nibble in two's complement. -/
theorem flip_bias {n : ℕ} (h : n < 16) : (((n + 8) % 16 : ℕ) : ℤ) - 8 = signed4 n := by
  unfold signed4
  split <;> omega

/-- Read with the bias, a nibble is off by 8: too large with bit 3 set, too small without. -/
theorem biased_eq_signed4_add (n : ℕ) : (n : ℤ) - 8 = signed4 n + ((if 8 ≤ n then 16 else 0) - 8) := by
  unfold signed4
  split <;> split <;> omega

/-- Nibbles summed up with the bias, against their sum in two's complement. -/
theorem sum_biased {ι : Type*} (s : Finset ι) (n : ι → ℕ) : ∑ i ∈ s, ((n i : ℤ) - 8) =
    ∑ i ∈ s, signed4 (n i) + (16 * (s.filter fun i => 8 ≤ n i).card - 8 * s.card) := by
  have hset : ∑ i ∈ s, (if 8 ≤ n i then (16 : ℤ) else 0) = 16 * (s.filter fun i => 8 ≤ n i).card := by
    rw [← Finset.sum_filter, Finset.sum_const, nsmul_eq_mul, mul_comm]
  have hall : ∑ _i ∈ s, (8 : ℤ) = 8 * s.card := by
    rw [Finset.sum_const, nsmul_eq_mul, mul_comm]
  calc ∑ i ∈ s, ((n i : ℤ) - 8) = ∑ i ∈ s, (signed4 (n i) + ((if 8 ≤ n i then 16 else 0) - 8)) :=
        Finset.sum_congr rfl fun i _ => biased_eq_signed4_add (n i)
    _ = ∑ i ∈ s, signed4 (n i) + (16 * (s.filter fun i => 8 ≤ n i).card - 8 * s.card) := by
        rw [Finset.sum_add_distrib, Finset.sum_sub_distrib, hset, hall]

/-! ## Words -/

/-- Nibble `i` of a word. -/
def wordNibble (w : BitVec 32) (i : ℕ) : ℕ := w.toNat / 16 ^ i % 16

theorem eq_of_digits {m : ℕ} : ∀ {x y : ℕ}, x < 16 ^ m → y < 16 ^ m →
    (∀ i < m, x / 16 ^ i % 16 = y / 16 ^ i % 16) → x = y := by
  induction m with
  | zero =>
    intro x y hx hy _
    rw [pow_zero] at hx hy
    omega
  | succ m ih =>
    intro x y hx hy h
    have hdiv : x / 16 = y / 16 := by
      refine ih ?_ ?_ fun i hi => ?_
      · rw [pow_succ] at hx
        omega
      · rw [pow_succ] at hy
        omega
      · have hi' := h (i + 1) (Nat.succ_lt_succ hi)
        rwa [pow_succ', ← Nat.div_div_eq_div_mul, ← Nat.div_div_eq_div_mul] at hi'
    have hmod := h 0 (Nat.succ_pos m)
    rw [pow_zero, Nat.div_one, Nat.div_one] at hmod
    omega

theorem word_ext {w v : BitVec 32} (h : ∀ i < 8, wordNibble w i = wordNibble v i) : w = v :=
  BitVec.eq_of_toNat_eq (eq_of_digits (m := 8) w.isLt v.isLt h)

/-- Four bytes as a little-endian word. -/
def leWord (b : ℕ → UInt8) : BitVec 32 := (b 3).toBitVec ++ (b 2).toBitVec ++ (b 1).toBitVec ++ (b 0).toBitVec

theorem leWord_congr {b b' : ℕ → UInt8} (h : ∀ j < 4, b j = b' j) : leWord b = leWord b' := by
  unfold leWord
  rw [h 0 (by decide), h 1 (by decide), h 2 (by decide), h 3 (by decide)]

theorem leWord_toNat (b : ℕ → UInt8) : (leWord b).toNat =
    (b 0).toNat + 256 * (b 1).toNat + 65536 * (b 2).toNat + 16777216 * (b 3).toNat := by
  have h0 := (b 0).toNat_lt
  have h1 := (b 1).toNat_lt
  have h2 := (b 2).toNat_lt
  unfold leWord
  simp only [BitVec.toNat_append, UInt8.toNat_toBitVec]
  rw [← Nat.shiftLeft_add_eq_or_of_lt h2, ← Nat.shiftLeft_add_eq_or_of_lt h1, ← Nat.shiftLeft_add_eq_or_of_lt h0]
  simp only [Nat.shiftLeft_eq]
  omega

/-- The nibbles of a little-endian word are those of its bytes in order. -/
theorem wordNibble_leWord (b : ℕ → UInt8) {i : ℕ} (h : i < 8) : wordNibble (leWord b) i = nibble (b (i / 2)) (i % 2) := by
  have h0 := (b 0).toNat_lt
  have h1 := (b 1).toNat_lt
  have h2 := (b 2).toNat_lt
  have h3 := (b 3).toNat_lt
  unfold wordNibble nibble
  rw [leWord_toNat]
  match i, h with
  | 0, _ | 1, _ | 2, _ | 3, _ | 4, _ | 5, _ | 6, _ | 7, _ =>
    norm_num only
    omega

/-- Nibbles or-ed into a word, each at its place. -/
def packed (q : ℕ → BitVec 32) (n : ℕ) : BitVec 32 := (List.range n).foldl (fun w j => w ||| (q j <<< (4 * j))) 0

theorem packed_succ {q : ℕ → BitVec 32} (hq : ∀ j < 8, (q j).toNat < 16) {n : ℕ} (hn : n < 8)
    (hlt : (packed q n).toNat < 16 ^ n) :
    (packed q (n + 1)).toNat = (q n).toNat * 16 ^ n + (packed q n).toNat := by
  have hpow : (16 : ℕ) ^ n * 16 ≤ 2 ^ 32 := by
    calc (16 : ℕ) ^ n * 16 = 16 ^ (n + 1) := (pow_succ 16 n).symm
      _ ≤ 16 ^ 8 := Nat.pow_le_pow_right (by decide) hn
  have hshift : (q n <<< (4 * n)).toNat = (q n).toNat * 16 ^ n := by
    rw [BitVec.toNat_shiftLeft, Nat.shiftLeft_eq, pow_mul, show (2 : ℕ) ^ 4 = 16 by decide, Nat.mod_eq_of_lt]
    exact Nat.lt_of_lt_of_le (Nat.mul_lt_mul_of_pos_right (hq n hn) (by positivity)) (by omega)
  have hor := Nat.shiftLeft_add_eq_or_of_lt (i := 4 * n) (by rw [pow_mul]; exact hlt) (q n).toNat
  rw [Nat.shiftLeft_eq, pow_mul] at hor
  unfold packed at hor ⊢
  rw [List.range_succ, List.foldl_append, List.foldl_cons, List.foldl_nil, BitVec.toNat_or, hshift, Nat.or_comm]
  exact hor.symm

theorem packed_lt {q : ℕ → BitVec 32} (hq : ∀ j < 8, (q j).toNat < 16) {n : ℕ} (hn : n ≤ 8) :
    (packed q n).toNat < 16 ^ n := by
  induction n with
  | zero => exact Nat.one_pos
  | succ n ih =>
    have hlt := ih (Nat.le_of_succ_le hn)
    have hqn := hq n hn
    rw [packed_succ hq hn hlt, pow_succ]
    calc (q n).toNat * 16 ^ n + (packed q n).toNat < (q n).toNat * 16 ^ n + 16 ^ n := Nat.add_lt_add_left hlt _
      _ = ((q n).toNat + 1) * 16 ^ n := (Nat.succ_mul _ _).symm
      _ ≤ 16 * 16 ^ n := Nat.mul_le_mul_right _ hqn
      _ = 16 ^ n * 16 := Nat.mul_comm _ _

/-- The nibbles of a word so packed are those that were put in. -/
theorem wordNibble_packed {q : ℕ → BitVec 32} (hq : ∀ j < 8, (q j).toNat < 16) {n : ℕ} (hn : n ≤ 8) {i : ℕ} (hi : i < n) :
    wordNibble (packed q n) i = (q i).toNat := by
  induction n with
  | zero => exact absurd hi (Nat.not_lt_zero i)
  | succ n ih =>
    have hlt := packed_lt hq (Nat.le_of_succ_le hn)
    unfold wordNibble at ih ⊢
    rw [packed_succ hq hn hlt]
    rcases Nat.lt_succ_iff_lt_or_eq.mp hi with hi | rfl
    · -- below the new nibble nothing changes
      rw [← ih (Nat.le_of_succ_le hn) hi]
      obtain ⟨k, rfl⟩ := Nat.exists_eq_add_of_lt hi
      have hplace : (q (i + k + 1)).toNat * 16 ^ (i + k + 1) = 16 ^ i * ((q (i + k + 1)).toNat * 16 ^ k * 16) := by ring
      rw [hplace, Nat.mul_add_div (by positivity)]
      omega
    · rw [Nat.mul_comm, Nat.mul_add_div (by positivity), Nat.div_eq_of_lt hlt, Nat.add_zero, Nat.mod_eq_of_lt (hq i hn)]

end ExpertServe.Lib
