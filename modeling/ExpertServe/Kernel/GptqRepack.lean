import ExpertServe.Lib.Nibble
import ExpertServe.Lib.Tensor

/-!
# Repacking INT4 for the Marlin kernel

A packed weight keeps two signed nibbles to a byte along the hidden axis. Marlin reads words of eight nibbles along that
axis, each with a bias of 8. `_raw_twos_complement_int4_to_gptq` converts all experts of a layer at load time,
`pack_gptq` after `w4_signed` one expert at a time on disk.

* `rawTwosComplementInt4ToGptq_eq`: the words of the first, expert by expert;
* `packGptq_w4Signed_eq`: those of the second;
* `repack_spec`: what the words decode to, that nothing is lost, and that the two agree.
-/

namespace ExpertServe.Gptq

open Lib

/-! ## The conversion at load time -/

inductive DType where
  | int8
  | uint8
  | int32
deriving DecidableEq

def DType.name : DType → String
  | .int8 => "torch.int8"
  | .uint8 => "torch.uint8"
  | .int32 => "torch.int32"

/-- A tuple as Python prints it. -/
def tupleText : List ℕ → String
  | [] => "()"
  | [d] => "(" ++ toString d ++ ",)"
  | dims => "(" ++ String.intercalate ", " (dims.map toString) ++ ")"

/-- `_raw_twos_complement_int4_to_gptq`; `packedWeight` holds the bytes of the tensor. -/
def rawTwosComplementInt4ToGptq (dtype : DType) (packedWeight : Tensor UInt8) (sizeK sizeN : ℕ) :
    Except String (Tensor (BitVec 32)) :=
  if dtype ≠ .int8 then .error ("expected int8 packed weights, got " ++ dtype.name)
  else if packedWeight.shape.tail ≠ [sizeN, sizeK / 2] then
    .error ("unexpected RAWINT4 shape " ++ tupleText packedWeight.shape ++ " for K=" ++ toString sizeK ++ ", N=" ++
      toString sizeN)
  else if sizeK % 8 ≠ 0 then .error ("Marlin INT4 K must be divisible by 8, got " ++ toString sizeK)
  else
    let numExperts := packedWeight.shape.headD 0
    let biasedBytes := packedWeight.map (· ^^^ 0x88)
    let words := (biasedBytes.reshape [numExperts, sizeN, sizeK / 8, 4]).bind fun blocks =>
      ((blocks.permute [0, 2, 1, 3]).viewAs 4 leWord).map Tensor.squeezeLast
    match words with
    | some words => .ok words
    | none => .error "shape is invalid for input"

/-! ## The conversion on disk -/

/-- `w4_signed`. -/
def w4Signed (pk : Tensor UInt8) : Tensor ℤ :=
  Tensor.build [pk.shape.getD 0 0, pk.shape.getD 1 0 * 2] fun idx =>
    let byte := pk.get [idx.getD 0 0, idx.getD 1 0 / 2]
    let n : ℤ := if idx.getD 1 0 % 2 = 0 then (byte &&& 0xF).toNat else ((byte >>> 4) &&& 0xF).toNat
    if n ≥ 8 then n - 16 else n

/-- `pack_gptq`; `none` is a raise. -/
def packGptq {β γ : Type*} [Inhabited β] (toFloat16 : β → γ) (sgn : Tensor ℤ) (sc : Tensor β) :
    Option (Tensor (BitVec 32) × Tensor γ) :=
  match sgn.shape with
  | [out, inn] =>
    let q : Tensor (BitVec 32) := sgn.map fun s => BitVec.ofInt 32 (s + 8) &&& 0xF
    ((q.permute [1, 0]).reshape [inn / 8, 8, out]).map fun qt =>
      let qw := Tensor.build [inn / 8, out] fun idx => packed (fun j => qt.get [idx.getD 0 0, j, idx.getD 1 0]) 8
      (qw, (sc.permute [1, 0]).map toFloat16)
  | _ => none

/-! ## What the words mean -/

/-- The weight a `uint4b8` kernel finds at `(k, n)` of expert `e`. -/
def decodeGptq (words : Tensor (BitVec 32)) (e k n : ℕ) : ℤ := (wordNibble (words.get [e, k / 8, n]) (k % 8) : ℤ) - 8

/-- The weight at `(n, k)` of expert `e` of the packed tensor. -/
def signedNibble (packedWeight : Tensor UInt8) (e n k : ℕ) : ℤ :=
  signed4 (nibble (packedWeight.get [e, n, k / 2]) (k % 2))

/-- What the conversion promises of the words: they decode to the weights, no other tensor has the same words, and each
expert has the words it has on disk. -/
structure Repacks {β γ : Type*} [Inhabited β] (toFloat16 : β → γ) (packedWeight : Tensor UInt8)
    (numExperts sizeK sizeN : ℕ) (words : Tensor (BitVec 32)) : Prop where
  shape : words.shape = [numExperts, sizeK / 8, sizeN]
  decode : ∀ e < numExperts, ∀ k < sizeK, ∀ n < sizeN, decodeGptq words e k n = signedNibble packedWeight e n k
  injective : ∀ packedWeight' : Tensor UInt8, packedWeight'.shape = packedWeight.shape →
    rawTwosComplementInt4ToGptq .int8 packedWeight' sizeK sizeN = .ok words → packedWeight' = packedWeight
  onDisk : ∀ e < numExperts, ∀ sc : Tensor β,
    (packGptq toFloat16 (w4Signed (packedWeight.select e)) sc).map Prod.fst = some (words.select e)

section Words

variable {t : Tensor UInt8} {E N c : ℕ}

/-- The words of the conversion: four flipped bytes of a row each. -/
def flippedWords (t : Tensor UInt8) (E N c : ℕ) : Tensor (BitVec 32) :=
  Tensor.build [E, c, N] fun idx =>
    leWord fun j => t.get [idx.getD 0 0, idx.getD 2 0, idx.getD 1 0 * 4 + j] ^^^ 0x88

/-- **The conversion at load time.** -/
theorem rawTwosComplementInt4ToGptq_eq (hshape : t.shape = [E, N, 8 * c / 2]) :
    rawTwosComplementInt4ToGptq .int8 t (8 * c) N = .ok (flippedWords t E N c) := by
  have hhalf : 8 * c / 2 = c * 4 := by omega
  have height : 8 * c / 8 = c := by omega
  have hmod : 8 * c % 8 = 0 := by omega
  rw [hhalf] at hshape
  have hsize : (t.map (· ^^^ 0x88)).shape.prod = [E, N, c, 4].prod := by
    simp [hshape]
  obtain ⟨blocks, hblocks, hshape', hget⟩ := Tensor.exists_reshape hsize
  have hperm : (blocks.permute [0, 2, 1, 3]).shape = [E, c, N] ++ [4] := by
    simp [Tensor.permute, hshape']
  unfold rawTwosComplementInt4ToGptq
  rw [if_neg (by simp), if_neg (by rw [hshape, hhalf]; simp), if_neg (by simp [hmod])]
  simp only [hshape, List.headD_cons, height]
  rw [hblocks, Option.bind_some]
  obtain ⟨viewed, hviewed, hshape'', hview⟩ :=
    Tensor.exists_viewAs (n := 4) hperm (by decide) (by decide) leWord
  rw [hviewed, Option.map_some]
  have hsqueezed : viewed.squeezeLast.shape = [E, c, N] := Tensor.squeezeLast_shape hshape''
  refine congrArg Except.ok (Tensor.ext_get hsqueezed fun idx hidx => ?_)
  rw [hsqueezed] at hidx
  rw [Tensor.get_squeezeLast hshape'' hidx, flippedWords, Tensor.get_build hidx]
  obtain ⟨e, he, w, hw, n, hn, rfl⟩ := exists_index₃ hidx
  rw [hview _ _ (by simp [InBounds, he, hw, hn])]
  refine leWord_congr fun j hj => ?_
  -- byte `j` of word `w` of a row
  have hplace : offset [E, N, c, 4] [e, n, w, j] = offset (t.map (· ^^^ 0x88)).shape [e, n, w * 4 + j] := by
    simp [offset, hshape]
  rw [Tensor.get_permute (by simp [InBounds, hshape', he, hw, hn]; omega)]
  have hrow : w * 4 + j < c * 4 := by omega
  calc blocks.get _ = blocks.get [e, n, w, j] := by simp [hshape', List.range_succ, List.idxOf_cons]
    _ = (t.map (· ^^^ 0x88)).get [e, n, w * 4 + j] := hget _ _ hplace
    _ = t.get [e, n, w * 4 + j] ^^^ 0x88 := Tensor.get_map (by simp [InBounds, hshape, he, hn, hrow]) _

theorem get_flippedWords {e w n : ℕ} (he : e < E) (hw : w < c) (hn : n < N) :
    (flippedWords t E N c).get [e, w, n] = leWord fun j => t.get [e, n, w * 4 + j] ^^^ 0x88 :=
  Tensor.get_build (by simp [InBounds, he, hw, hn]) _

/-- Nibble `k` of a row of the words is nibble `k` of the row of the tensor, flipped. -/
theorem wordNibble_flippedWords {e k n : ℕ} (he : e < E) (hk : k < 8 * c) (hn : n < N) :
    wordNibble ((flippedWords t E N c).get [e, k / 8, n]) (k % 8) =
      (nibble (t.get [e, n, k / 2]) (k % 2) + 8) % 16 := by
  have hbyte : k / 8 * 4 + k % 8 / 2 = k / 2 := by omega
  have hhalf : k % 8 % 2 = k % 2 := by omega
  rw [get_flippedWords he (by omega) hn, wordNibble_leWord _ (by omega), nibble_flip _ (by omega), hbyte, hhalf]

theorem decodeGptq_flippedWords {e k n : ℕ} (he : e < E) (hk : k < 8 * c) (hn : n < N) :
    decodeGptq (flippedWords t E N c) e k n = signedNibble t e n k := by
  unfold decodeGptq signedNibble
  rw [wordNibble_flippedWords he hk hn]
  exact flip_bias (nibble_lt _ _)

/-- Tensors with the same words are the same. -/
theorem flippedWords_injective {t' : Tensor UInt8} (hshape : t.shape = [E, N, 8 * c / 2])
    (hshape' : t'.shape = t.shape) (h : flippedWords t' E N c = flippedWords t E N c) : t' = t := by
  refine Tensor.ext_get hshape' fun idx hidx => ?_
  rw [hshape', hshape] at hidx
  obtain ⟨e, he, n, hn, b, hb, rfl⟩ := exists_index₃ hidx
  refine byte_ext fun i hi => ?_
  have hk : 2 * b + i < 8 * c := by omega
  have hsame : signedNibble t' e n (2 * b + i) = signedNibble t e n (2 * b + i) := by
    rw [← decodeGptq_flippedWords he hk hn, ← decodeGptq_flippedWords he hk hn, h]
  unfold signedNibble at hsame
  rw [show (2 * b + i) / 2 = b by omega, show (2 * b + i) % 2 = i by omega] at hsame
  exact signed4_inj (nibble_lt _ _) (nibble_lt _ _) hsame

end Words

/-! ## The two conversions agree -/

section OnDisk

variable {pk : Tensor UInt8} {N c : ℕ}

/-- The two masks of `w4_signed` are the nibbles. -/
theorem masked_nibble (b : UInt8) (k : ℕ) :
    (if k % 2 = 0 then (b &&& 0xF).toNat else ((b >>> 4) &&& 0xF).toNat) = nibble b (k % 2) := by
  rcases Nat.mod_two_eq_zero_or_one k with hk | hk
  · rw [hk, if_pos rfl]
    exact mask_low b
  · rw [hk, if_neg (by decide)]
    exact mask_high b

theorem get_w4Signed (hshape : pk.shape = [N, c]) {n k : ℕ} (hn : n < N) (hk : k < c * 2) :
    (w4Signed pk).get [n, k] = signed4 (nibble (pk.get [n, k / 2]) (k % 2)) := by
  unfold w4Signed
  rw [Tensor.get_build (by simp [InBounds, hshape, hn, hk])]
  have hnib := masked_nibble (pk.get [n, k / 2]) k
  have hlt := nibble_lt (pk.get [n, k / 2]) (k % 2)
  simp only [List.getD_cons_zero, List.getD_cons_succ, ← apply_ite (Nat.cast : ℕ → ℤ)]
  rw [hnib]
  unfold signed4
  split <;> split <;> omega

/-- The biased nibble of a signed one. -/
theorem biased_toNat {n : ℕ} (h : n < 16) : (BitVec.ofInt 32 (signed4 n + 8) &&& 0xF).toNat = (n + 8) % 16 := by
  revert n
  decide

/-- **The conversion on disk.** -/
theorem packGptq_w4Signed_eq {β γ : Type*} [Inhabited β] (toFloat16 : β → γ) (hshape : pk.shape = [N, c * 4])
    (sc : Tensor β) : ∃ qw, packGptq toFloat16 (w4Signed pk) sc = some (qw, (sc.permute [1, 0]).map toFloat16) ∧
      qw.shape = [c, N] ∧ ∀ w < c, ∀ n < N, ∀ j < 8,
        wordNibble (qw.get [w, n]) j = (nibble (pk.get [n, (w * 8 + j) / 2]) ((w * 8 + j) % 2) + 8) % 16 := by
  have hsgn : (w4Signed pk).shape = [N, c * 4 * 2] := by simp [w4Signed, hshape]
  have height : c * 4 * 2 / 8 = c := by omega
  let q : Tensor (BitVec 32) := (w4Signed pk).map fun s => BitVec.ofInt 32 (s + 8) &&& 0xF
  have hq : ∀ n < N, ∀ k < c * 4 * 2, (q.get [n, k]).toNat = (nibble (pk.get [n, k / 2]) (k % 2) + 8) % 16 := by
    intro n hn k hk
    rw [Tensor.get_map (by simp [InBounds, hsgn, hn, hk]), get_w4Signed hshape hn hk]
    exact biased_toNat (nibble_lt _ _)
  have hperm : (q.permute [1, 0]).shape = [c * 4 * 2, N] := by simp [Tensor.permute, q, hsgn]
  have hsize : (q.permute [1, 0]).shape.prod = [c, 8, N].prod := by
    simp [hperm]
    ring
  obtain ⟨qt, hqt, -, hget⟩ := Tensor.exists_reshape hsize
  have hqt' : ∀ w < c, ∀ n < N, ∀ j < 8,
      (qt.get [w, j, n]).toNat = (nibble (pk.get [n, (w * 8 + j) / 2]) ((w * 8 + j) % 2) + 8) % 16 := by
    intro w hw n hn j hj
    have hk : w * 8 + j < c * 4 * 2 := by omega
    have hplace : offset [c, 8, N] [w, j, n] = offset (q.permute [1, 0]).shape [w * 8 + j, n] := by
      simp [offset, hperm]
      ring
    rw [hget _ _ hplace, Tensor.get_permute (by simp [InBounds, q, hsgn, hk, hn])]
    have hswap : (List.range q.shape.length).map (fun b => [w * 8 + j, n].getD (([1, 0] : List ℕ).idxOf b) 0) =
        [n, w * 8 + j] := by
      simp [q, hsgn, List.range_succ, List.idxOf_cons]
    rw [hswap]
    exact hq n hn _ hk
  refine ⟨Tensor.build [c, N] fun idx => packed (fun j => qt.get [idx.getD 0 0, j, idx.getD 1 0]) 8, ?_, rfl,
    fun w hw n hn j hj => ?_⟩
  · unfold packGptq
    simp only [hsgn, height]
    show ((q.permute [1, 0]).reshape [c, 8, N]).map _ = _
    rw [hqt, Option.map_some]
  · rw [Tensor.get_build (by simp [InBounds, hw, hn])]
    have hlt : ∀ j < 8, (qt.get [w, j, n]).toNat < 16 := fun j hj => by
      rw [hqt' w hw n hn j hj]
      exact Nat.mod_lt _ (by decide)
    exact (wordNibble_packed hlt (Nat.le_refl 8) hj).trans (hqt' w hw n hn j hj)

end OnDisk

/-- **Repacking.** The conversion of any number of experts at load time succeeds, loses nothing, decodes to the weights
of the tensor and gives each expert the words it has on disk. -/
theorem repack_spec {β γ : Type*} [Inhabited β] (toFloat16 : β → γ) (packedWeight : Tensor UInt8)
    (numExperts sizeK sizeN : ℕ) (hshape : packedWeight.shape = [numExperts, sizeN, sizeK / 2]) (hk : sizeK % 8 = 0) :
    ∃ words, rawTwosComplementInt4ToGptq .int8 packedWeight sizeK sizeN = .ok words ∧
      Repacks toFloat16 packedWeight numExperts sizeK sizeN words := by
  obtain ⟨c, rfl⟩ := Nat.dvd_of_mod_eq_zero hk
  have height : 8 * c / 8 = c := by omega
  refine ⟨_, rawTwosComplementInt4ToGptq_eq hshape, ?_, ?_, ?_, ?_⟩
  · rw [height]
    rfl
  · exact fun e he k hk n hn => decodeGptq_flippedWords he hk hn
  · intro packedWeight' hshape' h
    rw [rawTwosComplementInt4ToGptq_eq (hshape'.trans hshape)] at h
    exact flippedWords_injective hshape hshape' (Except.ok.inj h)
  · intro e he sc
    have hexpert : (packedWeight.select e).shape = [sizeN, c * 4] := by
      simp [Tensor.select, hshape]
      omega
    obtain ⟨qw, hqw, hqwshape, hqwget⟩ := packGptq_w4Signed_eq toFloat16 hexpert sc
    rw [hqw, Option.map_some]
    refine congrArg some (Tensor.ext_get hqwshape fun idx hidx => ?_)
    rw [hqwshape] at hidx
    obtain ⟨w, hw, n, hn, rfl⟩ := exists_index₂ hidx
    refine word_ext fun j hj => ?_
    have hk : w * 8 + j < 8 * c := by omega
    have hbyte : (packedWeight.select e).get [n, (w * 8 + j) / 2] = packedWeight.get [e, n, (w * 8 + j) / 2] :=
      Tensor.get_select (by simp [hshape, InBounds, hn]; omega)
    have hword : ((flippedWords packedWeight numExperts sizeN c).select e).get [w, n] =
        (flippedWords packedWeight numExperts sizeN c).get [e, w, n] :=
      Tensor.get_select (by simp [flippedWords, InBounds, hw, hn])
    have hnib := wordNibble_flippedWords (t := packedWeight) he hk hn
    rw [show (w * 8 + j) / 8 = w by omega, show (w * 8 + j) % 8 = j by omega] at hnib
    rw [hqwget w hw n hn j hj, hbyte, hword]
    exact hnib.symm

/-- Two experts with two rows of sixteen weights, in the bytes from `0x70` on: each row is two words. -/
theorem repack_spec_row :
    let bytes : Tensor UInt8 := Tensor.build [2, 2, 8] fun idx =>
      UInt8.ofNat (0x70 + 16 * idx.getD 0 0 + 8 * idx.getD 1 0 + idx.getD 2 0)
    ∃ words, rawTwosComplementInt4ToGptq .int8 bytes 16 2 = .ok words ∧ Repacks (id : ℕ → ℕ) bytes 2 16 2 words :=
  repack_spec id _ 2 16 2 rfl rfl

end ExpertServe.Gptq
