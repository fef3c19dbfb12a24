import ExpertServe.Kernel.RoundTrip
import ExpertServe.Lib.Lanes
import ExpertServe.Lib.Updates

/-!
# The packed dot product

A weight stays packed until it is multiplied. `unpack_int4_chunk` makes 32 signed bytes out of 16 packed ones, `dpbusd`
multiplies them with activations quantised group by group and stored with an offset of 128, and 128 times the sum of the
group's weights, which `from_raw_mat` left in an int16 table, takes the offset out again.

* `unpackInt4Chunk_toInt`: the lanes are the weights of the row, in order;
* `groupSum_eq`: what `from_raw_mat` sums up;
* `groupDot_eq_iff`: the table entry decides whether the kernel forms the dot product of a group;
* `groupExact`: the integer of a group, with every register on the way exact;
* `count_gemmVisits`: which groups of which rows the kernel multiplies, and how often;
* `gemm_cell`: what it makes of them;
* `packedDot`: both for the buffer that `from_raw_mat` leaves.
-/

namespace ExpertServe.PackedInt4

open Lib

variable {Bf16 F32 : Type*}

/-! ## Weights -/

/-- Weight `k` of a packed row: the low nibble of a byte for even `k`, in two's complement. -/
def weightAt (row : ℕ → UInt8) (k : ℕ) : ℤ := signed4 (nibble (row (k / 2)) (k % 2))

/-- The sum of a group of a row, as `from_raw_mat` forms it: two nibbles at a time. -/
def groupSum (srcRow : ℕ → UInt8) (kBase groupSize : ℕ) : ℤ :=
  ((List.range ((groupSize + 1) / 2)).map fun i =>
    let packed := srcRow ((kBase + 2 * i) / 2)
    let n0 : ℤ := (packed &&& 0x0F).toNat
    let n1 : ℤ := ((packed >>> 4) &&& 0x0F).toNat
    (if n0 ≥ 8 then n0 - 16 else n0) + (if n1 ≥ 8 then n1 - 16 else n1)).sum

/-- The weight sums `from_raw_mat` writes: for each row of worker `ith` of `nth` those of its groups, as int16. -/
def fromRawMatSums {κ : Type*} (h : Headers Bf16 F32) (dst : κ) (n k groupSize : ℕ) (srcPacked : ℕ → UInt8)
    (ith nth : ℕ) : List (Copy κ (BitVec 16)) :=
  let (start, stop) := h.splitRange n ith nth
  let rowBytes := k / 2
  let numGroups := k / groupSize
  (List.range' start (stop - start)).map fun ni => ⟨dst, ni * numGroups, numGroups, fun g =>
    BitVec.ofInt 16 (groupSum (fun j => srcPacked (ni * rowBytes + j)) (g * groupSize) groupSize)⟩

/-- `BufferB`: the packed rows, their scales and their weight sums, of sizes its constructor accepts. -/
structure BufferB (F32 : Type*) where
  n : ℕ
  k : ℕ
  groupSize : ℕ
  accepted : GeneralMOEConfig.bufferB k groupSize = .ok ()
  qweightPacked : ℕ → UInt8
  scales : ℕ → F32
  weightSums : ℕ → BitVec 16

def BufferB.numGroups (b : BufferB F32) : ℕ := b.k / b.groupSize

/-- `b'` is what `nth` workers may leave of `b` with `from_raw_mat`, in any order. -/
structure BufferB.Filled (h : Headers Bf16 F32) (nth : ℕ) (srcPacked : ℕ → UInt8) (srcScales : ℕ → Bf16)
    (b b' : BufferB F32) : Prop where
  n : b'.n = b.n
  k : b'.k = b.k
  groupSize : b'.groupSize = b.groupSize
  weights : Runs ((List.range nth).flatMap fun ith =>
      (fromRawMat h () b.n b.k b.groupSize srcPacked srcScales ith nth).weights)
    (fun _ => b.qweightPacked) fun _ => b'.qweightPacked
  scales : Runs ((List.range nth).flatMap fun ith =>
      (fromRawMat h () b.n b.k b.groupSize srcPacked srcScales ith nth).scales)
    (fun _ => b.scales) fun _ => b'.scales
  sums : Runs ((List.range nth).flatMap fun ith => fromRawMatSums h () b.n b.k b.groupSize srcPacked ith nth)
    (fun _ => b.weightSums) fun _ => b'.weightSums

/-! ## Activations -/

/-- The float operations of the kernel. -/
structure Fp32 (F32 : Type*) where
  zero : F32
  fltMin : F32
  fabs : F32 → F32
  max : F32 → F32 → F32
  le : F32 → F32 → Bool
  isZero : F32 → Bool
  add : F32 → F32 → F32
  mul : F32 → F32 → F32
  div : F32 → F32 → F32
  ofInt : ℤ → F32
  lrint : F32 → ℤ

/-- `quantize_activation_group_u8`: the scale of a group, and its bytes. -/
def quantizeActivationGroupU8 (fp : Fp32 F32) (src : ℕ → F32) (groupSize : ℕ) : F32 × (ℕ → UInt8) :=
  let absmax := (List.range groupSize).foldl (fun m i => fp.max m (fp.fabs (src i))) fp.zero
  if fp.le absmax fp.fltMin then (fp.zero, fun _ => 0x80)
  else
    let scale := fp.div absmax (fp.ofInt 127)
    let invScale := fp.div (fp.ofInt 1) scale
    (scale, fun i =>
      let q := max (-127) (min (fp.lrint (fp.mul (src i) invScale)) 127)
      UInt8.ofBitVec (BitVec.ofInt 8 q) ^^^ 0x80)

/-- A byte that stands for `q` with the offset of 128. -/
def Biased (a : UInt8) (q : ℤ) : Prop := (-127 ≤ q ∧ q ≤ 127) ∧ (a.toNat : ℤ) = q + 128

/-! ## The kernel -/

/-- `unpack_int4_chunk`. -/
def unpackInt4Chunk (wPacked : ℕ → UInt8) (mask0f : Lanes 16 8) (eight : Lanes 32 8) : Lanes 32 8 :=
  let pk := Lanes.load 16 wPacked
  let lo := Lanes.and pk mask0f
  let hi := Lanes.and (Lanes.srli16 pk 4) mask0f
  let w0 := Lanes.unpacklo8 lo hi
  let w1 := Lanes.unpackhi8 lo hi
  let w := Lanes.setM128 w1 w0
  Lanes.sub (Lanes.xor w eight) eight

/-- The accumulator of one group of one row after `n` of its chunks. -/
def groupAcc (aU8 wCol : ℕ → UInt8) (n : ℕ) : Lanes 8 32 :=
  let mask0f := Lanes.set1 16 0x0F
  let eight := Lanes.set1 32 8
  (List.range n).foldl (fun acc c =>
    let kk := 32 * c
    let aVec := Lanes.load 32 fun i => aU8 (kk + i)
    let wVec := unpackInt4Chunk (fun i => wCol (kk / 2 + i)) mask0f eight
    Lanes.dpbusd acc aVec wVec) fun _ => 0

/-- `128 * (int)weight_sums[..]`. -/
def offsetTerm (weightSum : BitVec 16) : BitVec 32 := 128#32 * weightSum.signExtend 32

/-- `dot`: the integer of one group of one row. -/
def groupDot (aU8 wCol : ℕ → UInt8) (groupSize : ℕ) (weightSum : BitVec 16) : BitVec 32 :=
  Lanes.hsum (groupAcc aU8 wCol ((groupSize + 31) / 32)) - offsetTerm weightSum

/-- The packed bytes of row `ni` from the start of group `g`. -/
def BufferB.wCol (b : BufferB F32) (ni g : ℕ) : ℕ → UInt8 :=
  fun i => b.qweightPacked (ni * (b.k / 2) + g * b.groupSize / 2 + i)

section Gemm

variable (h : Headers Bf16 F32) (fp : Fp32 F32) (a : ℕ → ℕ → Bf16) (b : BufferB F32)

/-- The scale and the bytes of group `g` of row `mi` of the activations. -/
def activationGroup (mi g : ℕ) : F32 × (ℕ → UInt8) :=
  quantizeActivationGroupU8 fp (fun i => h.bf16ToFp32 (a mi (g * b.groupSize + i))) b.groupSize

/-- The groups of rows `[start, stop)` that are multiplied with each row of the activations, in order; a group with a
scale of zero is passed over. -/
def gemmVisits (m ith nth : ℕ) : List (ℕ × ℕ × ℕ) :=
  let (start, stop) := h.splitRange b.n ith nth
  (List.range m).flatMap fun mi => (List.range b.numGroups).flatMap fun g =>
    if fp.isZero (activationGroup h fp a b mi g).1 then []
    else (List.range' start (stop - start)).map fun ni => (mi, g, ni)

/-- `gemm_rawint4_packed_avx512` on the rows of worker `ith` of `nth`. -/
def gemmRawint4PackedAvx512 (m ith nth : ℕ) (c : ℕ × ℕ → F32) : ℕ × ℕ → F32 :=
  let (start, stop) := h.splitRange b.n ith nth
  let c := fun p => if p.1 < m ∧ start ≤ p.2 ∧ p.2 < stop then fp.zero else c p
  (gemmVisits h fp a b m ith nth).foldl (fun c (mi, g, ni) =>
    let (aScale, aU8) := activationGroup h fp a b mi g
    let dot := groupDot aU8 (b.wCol ni g) b.groupSize (b.weightSums (ni * b.numGroups + g))
    let term := fp.mul (fp.mul (fp.ofInt dot.toInt) aScale) (b.scales (ni * b.numGroups + g))
    Function.update c (mi, ni) (fp.add (c (mi, ni)) term)) c

end Gemm

/-! ## Weights, read three ways -/

section Weights

/-- **The lanes are the weights.** -/
theorem unpackInt4Chunk_toInt (wPacked : ℕ → UInt8) (i : Fin 32) :
    (unpackInt4Chunk wPacked (Lanes.set1 16 0x0F) (Lanes.set1 32 8) i).toInt = weightAt wPacked i := by
  let pk := Lanes.load 16 wPacked
  have hnib : (Lanes.setM128 (Lanes.unpackhi8 (Lanes.and pk (Lanes.set1 16 0x0F))
      (Lanes.and (Lanes.srli16 pk 4) (Lanes.set1 16 0x0F))) (Lanes.unpacklo8 (Lanes.and pk (Lanes.set1 16 0x0F))
      (Lanes.and (Lanes.srli16 pk 4) (Lanes.set1 16 0x0F))) i).toNat = nibble (wPacked (i / 2)) (i % 2) := by
    rw [Lanes.setM128_unpack]
    rcases Nat.mod_two_eq_zero_or_one i with hi | hi
    · rw [if_pos hi, hi]
      exact Lanes.low_nibble _
    · rw [if_neg (by omega), hi]
      exact (congrArg BitVec.toNat (Lanes.high_nibble pk ⟨i / 2, by omega⟩)).trans (Lanes.shifted_nibble _)
  have hlt := nibble_lt (wPacked (i / 2)) (i % 2)
  rw [← hnib] at hlt
  exact (Lanes.flip_sub_toInt hlt).trans (by rw [hnib]; rfl)

theorem sum_range_pairs (f : ℕ → ℤ) (n : ℕ) :
    ((List.range n).map fun i => f (2 * i) + f (2 * i + 1)).sum = ∑ k ∈ Finset.range (2 * n), f k := by
  induction n with
  | zero => rfl
  | succ n ih =>
    rw [List.range_succ, List.map_append, List.sum_append, ih, Nat.mul_succ, Finset.sum_range_succ,
      Finset.sum_range_succ, List.map_singleton, List.sum_singleton, add_assoc]

theorem signed4_masked (b : UInt8) {n : ℤ} {i : ℕ} (h : n = (nibble b i : ℤ)) :
    (if n ≥ 8 then n - 16 else n) = signed4 (nibble b i) := by
  unfold signed4
  split <;> split <;> omega

/-- **What `from_raw_mat` sums up** are the weights of the group. -/
theorem groupSum_eq (srcRow : ℕ → UInt8) {kBase groupSize : ℕ} (hbase : kBase % 2 = 0) (hgroup : groupSize % 2 = 0) :
    groupSum srcRow kBase groupSize = ∑ k ∈ Finset.range groupSize, weightAt srcRow (kBase + k) := by
  have hpairs : groupSize = 2 * ((groupSize + 1) / 2) := by omega
  conv_rhs => rw [hpairs]
  rw [← sum_range_pairs fun k => weightAt srcRow (kBase + k)]
  unfold groupSum
  refine congrArg List.sum (List.map_congr_left fun i _ => ?_)
  have heven : (kBase + 2 * i) % 2 = 0 := by omega
  have hodd : (kBase + (2 * i + 1)) % 2 = 1 := by omega
  have hbyte : (kBase + (2 * i + 1)) / 2 = (kBase + 2 * i) / 2 := by omega
  unfold weightAt
  rw [heven, hodd, hbyte]
  dsimp only
  rw [signed4_masked _ (congrArg Nat.cast (mask_low _)), signed4_masked _ (congrArg Nat.cast (mask_high _))]

theorem abs_weightAt_le (row : ℕ → UInt8) (k : ℕ) : |weightAt row k| ≤ 8 := by
  have hmem := signed4_mem (nibble_lt (row (k / 2)) (k % 2))
  exact abs_le.mpr ⟨by unfold weightAt; omega, by unfold weightAt; omega⟩

end Weights

/-! ## One group -/

section Group

variable {aU8 wCol : ℕ → UInt8} {groupSize : ℕ} {weightSum : BitVec 16} {q : ℕ → ℤ}

/-- Byte `k` of the unpacked group. -/
def weightByte (wCol : ℕ → UInt8) (k : ℕ) : BitVec 8 :=
  unpackInt4Chunk (fun i => wCol (16 * (k / 32) + i)) (Lanes.set1 16 0x0F) (Lanes.set1 32 8) ⟨k % 32, by omega⟩

theorem weightByte_toInt (wCol : ℕ → UInt8) (k : ℕ) : (weightByte wCol k).toInt = weightAt wCol k := by
  unfold weightByte
  rw [unpackInt4Chunk_toInt]
  unfold weightAt
  dsimp only
  rw [show 16 * (k / 32) + k % 32 / 2 = k / 2 by omega, show k % 32 % 2 = k % 2 by omega]

def activationByte (aU8 : ℕ → UInt8) (k : ℕ) : BitVec 8 := (aU8 k).toBitVec

theorem chunk_weightByte (wCol : ℕ → UInt8) (c : ℕ) : Lanes.chunk (weightByte wCol) c =
    unpackInt4Chunk (fun i => wCol (32 * c / 2 + i)) (Lanes.set1 16 0x0F) (Lanes.set1 32 8) := by
  funext i
  have hdiv : (32 * c + i.1) / 32 = c := by omega
  have hmod : (32 * c + i.1) % 32 = i.1 := by omega
  have hhalf : 32 * c / 2 = 16 * c := by omega
  unfold Lanes.chunk weightByte
  simp only [hdiv, hmod, hhalf]

/-- The kernel's loop over the chunks of a group is the loop of the library. -/
theorem groupAcc_eq (aU8 wCol : ℕ → UInt8) (n : ℕ) :
    groupAcc aU8 wCol n = Lanes.dotSteps (activationByte aU8) (weightByte wCol) n := by
  unfold groupAcc Lanes.dotSteps
  simp only [chunk_weightByte]
  rfl

/-- Every register of a group holds the integer it stands for: the products, the running sums of the lanes, the sums of
the lanes, the weight sum and its multiple; and what is left is the dot product of the group. -/
structure GroupExact (aU8 wCol : ℕ → UInt8) (groupSize : ℕ) (weightSum : BitVec 16) (q : ℕ → ℤ) : Prop where
  product : ∀ k < groupSize,
    (dpProduct (activationByte aU8 k) (weightByte wCol k)).toInt = (aU8 k).toNat * weightAt wCol k
  running : ∀ (l : Fin 8) (t : ℕ), 4 * t ≤ groupSize →
    (accumulate (Lanes.laneTerm (activationByte aU8) (weightByte wCol) l) t).toInt =
      ∑ s ∈ Finset.range t, ((aU8 (Lanes.lanePlace l s)).toNat : ℤ) * weightAt wCol (Lanes.lanePlace l s)
  lanes : ∀ (l : Fin 8) (c : ℕ),
    groupAcc aU8 wCol c l = accumulate (Lanes.laneTerm (activationByte aU8) (weightByte wCol) l) (4 * c)
  hsum : Lanes.HsumExact (groupAcc aU8 wCol ((groupSize + 31) / 32))
  table : weightSum.toInt = ∑ k ∈ Finset.range groupSize, weightAt wCol k
  offset : (offsetTerm weightSum).toInt = 128 * ∑ k ∈ Finset.range groupSize, weightAt wCol k
  dot : (groupDot aU8 wCol groupSize weightSum).toInt = ∑ k ∈ Finset.range groupSize, q k * weightAt wCol k

theorem term_eq (aU8 wCol : ℕ → UInt8) (k : ℕ) :
    Lanes.term (activationByte aU8) (weightByte wCol) k = (aU8 k).toNat * weightAt wCol k := by
  unfold Lanes.term
  rw [weightByte_toInt]
  rfl

/-- The integer of a group's products. -/
def productSum (aU8 wCol : ℕ → UInt8) (groupSize : ℕ) : ℤ :=
  ∑ k ∈ Finset.range groupSize, ((aU8 k).toNat : ℤ) * weightAt wCol k

theorem abs_weightSum_le (row : ℕ → UInt8) {groupSize : ℕ} (h : groupSize ≤ 256) :
    |∑ k ∈ Finset.range groupSize, weightAt row k| ≤ 2048 := by
  have hsum := abs_sum_le (t := groupSize) fun k _ => abs_weightAt_le row k
  omega

/-- The int16 of a table entry holds the sum of any group. -/
theorem weightSum_toInt (row : ℕ → UInt8) {groupSize : ℕ} (h : groupSize ≤ 256) :
    (BitVec.ofInt 16 (∑ k ∈ Finset.range groupSize, weightAt row k)).toInt =
      ∑ k ∈ Finset.range groupSize, weightAt row k := by
  have hsum := abs_le.mp (abs_weightSum_le row h)
  exact BitVec.toInt_ofInt_eq_self (by decide) (by norm_num; omega) (by norm_num; omega)

theorem abs_productSum_le (aU8 wCol : ℕ → UInt8) {groupSize : ℕ} (h : groupSize ≤ 256) :
    |productSum aU8 wCol groupSize| ≤ 8355840 := by
  have hterm : ∀ k < groupSize, |((aU8 k).toNat : ℤ) * weightAt wCol k| ≤ 32640 := fun k _ => by
    rw [← weightByte_toInt]
    exact abs_dpProduct_le (aU8 k).toBitVec _
  have hsum := abs_sum_le hterm
  unfold productSum
  omega

/-- The sum of the lanes is the sum of the products, with nothing lost. -/
theorem hsum_groupAcc (aU8 wCol : ℕ → UInt8) {n : ℕ} (hn : n ≤ 8) : Lanes.HsumExact (groupAcc aU8 wCol n) ∧
    (Lanes.hsum (groupAcc aU8 wCol n)).toInt = productSum aU8 wCol (32 * n) := by
  have hlane : ∀ l : Fin 8, (groupAcc aU8 wCol n l).toInt =
      ∑ s ∈ Finset.range (4 * n), Lanes.term (activationByte aU8) (weightByte wCol) (Lanes.lanePlace l s) := by
    intro l
    rw [groupAcc_eq, Lanes.dotSteps_eq, Lanes.laneSum_toInt _ _ _ (by omega)]
  have hbound : ∀ l, |(groupAcc aU8 wCol n l).toInt| ≤ 1044480 := by
    intro l
    rw [hlane]
    have hsum := abs_sum_le (t := 4 * n) fun s _ =>
      abs_dpProduct_le (activationByte aU8 (Lanes.lanePlace l s)) (weightByte wCol (Lanes.lanePlace l s))
    unfold Lanes.term
    omega
  have hexact := Lanes.hsum_exact hbound (by decide)
  refine ⟨hexact, (hexact.total 0).trans ?_⟩
  rw [Finset.sum_congr rfl fun l _ => hlane l, Lanes.sum_lanes]
  exact Finset.sum_congr rfl fun k _ => term_eq aU8 wCol k

/-- The multiple of a table entry is exact, whatever the entry. -/
theorem offsetTerm_toInt (weightSum : BitVec 16) : (offsetTerm weightSum).toInt = 128 * weightSum.toInt := by
  have hlo := BitVec.le_toInt weightSum
  have hhi := BitVec.toInt_lt (x := weightSum)
  have hsign : (weightSum.signExtend 32).toInt = weightSum.toInt := BitVec.toInt_signExtend_of_le (by decide)
  have h128 : (128#32).toInt = 128 := by decide
  unfold offsetTerm
  rw [BitVec.toInt_mul_of_not_smulOverflow, hsign, h128]
  simp [BitVec.smulOverflow, hsign, h128]
  omega

/-- What the kernel forms of a group: the products with the biased bytes, less 128 times the table entry. -/
theorem groupDot_toInt (hgroup : groupSize % 32 = 0) (hle : groupSize ≤ 256) (weightSum : BitVec 16) :
    (groupDot aU8 wCol groupSize weightSum).toInt = productSum aU8 wCol groupSize - 128 * weightSum.toInt := by
  have hsteps : 32 * ((groupSize + 31) / 32) = groupSize := by omega
  have hprod := abs_le.mp (abs_productSum_le aU8 wCol hle)
  have hlo := BitVec.le_toInt weightSum
  have hhi := BitVec.toInt_lt (x := weightSum)
  obtain ⟨-, hdot⟩ := hsum_groupAcc aU8 wCol (n := (groupSize + 31) / 32) (by omega)
  rw [hsteps] at hdot
  have hoffset := offsetTerm_toInt weightSum
  unfold groupDot
  rw [toInt_sub_of_bounds (by rw [hdot, hoffset]; norm_num at *; omega) (by rw [hdot, hoffset]; norm_num at *; omega),
    hdot, hoffset]

/-- The offset of the activations comes out as 128 times the sum of the weights. -/
theorem productSum_eq (hq : ∀ k < groupSize, Biased (aU8 k) (q k)) : productSum aU8 wCol groupSize =
    ∑ k ∈ Finset.range groupSize, q k * weightAt wCol k + 128 * ∑ k ∈ Finset.range groupSize, weightAt wCol k := by
  unfold productSum
  rw [Finset.mul_sum, ← Finset.sum_add_distrib]
  refine Finset.sum_congr rfl fun k hk => ?_
  rw [(hq k (Finset.mem_range.mp hk)).2]
  ring

/-- **The table entry decides.** The kernel forms the dot product of a group exactly when the entry is the sum of the
group's weights. -/
theorem groupDot_eq_iff (hgroup : groupSize % 32 = 0) (hle : groupSize ≤ 256)
    (hq : ∀ k < groupSize, Biased (aU8 k) (q k)) :
    (groupDot aU8 wCol groupSize weightSum).toInt = ∑ k ∈ Finset.range groupSize, q k * weightAt wCol k ↔
      weightSum.toInt = ∑ k ∈ Finset.range groupSize, weightAt wCol k := by
  rw [groupDot_toInt hgroup hle, productSum_eq hq]
  omega

/-- **One group.** -/
theorem groupExact (hgroup : groupSize % 32 = 0) (hle : groupSize ≤ 256)
    (hsum : weightSum = BitVec.ofInt 16 (∑ k ∈ Finset.range groupSize, weightAt wCol k))
    (hq : ∀ k < groupSize, Biased (aU8 k) (q k)) : GroupExact aU8 wCol groupSize weightSum q := by
  have hweight : weightSum.toInt = ∑ k ∈ Finset.range groupSize, weightAt wCol k := by
    rw [hsum]
    exact weightSum_toInt wCol hle
  obtain ⟨hhsum, -⟩ := hsum_groupAcc aU8 wCol (n := (groupSize + 31) / 32) (by omega)
  refine ⟨fun k _ => ?_, fun l t ht => ?_, fun l c => ?_, hhsum, hweight, ?_, (groupDot_eq_iff hgroup hle hq).mpr hweight⟩
  · rw [dpProduct_toInt, weightByte_toInt]
    rfl
  · rw [Lanes.laneSum_toInt _ _ _ (by omega)]
    exact Finset.sum_congr rfl fun s _ => term_eq aU8 wCol _
  · rw [groupAcc_eq, Lanes.dotSteps_eq]
  · rw [offsetTerm_toInt, hweight]

end Group

/-! ## All groups -/

section Visits

variable {h : Headers Bf16 F32} {fp : Fp32 F32} {a : ℕ → ℕ → Bf16} {b₀ b : BufferB F32} {nth : ℕ}
  {srcPacked : ℕ → UInt8} {srcScales : ℕ → Bf16}

theorem mem_gemmVisits {m ith mi g ni : ℕ} : (mi, g, ni) ∈ gemmVisits h fp a b m ith nth ↔
    (mi < m ∧ g < b.numGroups ∧ (h.splitRange b.n ith nth).1 ≤ ni ∧ ni < (h.splitRange b.n ith nth).2) ∧
      ¬ fp.isZero (activationGroup h fp a b mi g).1 := by
  unfold gemmVisits
  simp only [List.mem_flatMap, List.mem_range]
  constructor
  · rintro ⟨mi', hmi, g', hg, hmem⟩
    split at hmem
    · exact absurd hmem List.not_mem_nil
    · next hzero =>
      obtain ⟨ni', hni, heq⟩ := List.mem_map.mp hmem
      obtain ⟨rfl, rfl, rfl⟩ : mi' = mi ∧ g' = g ∧ ni' = ni := by simpa using heq
      have hrange : (h.splitRange b.n ith nth).1 ≤ ni' ∧ ni' < (h.splitRange b.n ith nth).1 +
        ((h.splitRange b.n ith nth).2 - (h.splitRange b.n ith nth).1) := List.mem_range'_1.mp hni
      exact ⟨⟨hmi, hg, hrange.1, by omega⟩, hzero⟩
  · rintro ⟨⟨hmi, hg, hlo, hhi⟩, hzero⟩
    refine ⟨mi, hmi, g, hg, ?_⟩
    have hmem : ni ∈ List.range' (h.splitRange b.n ith nth).1
        ((h.splitRange b.n ith nth).2 - (h.splitRange b.n ith nth).1) := List.mem_range'_1.mpr ⟨hlo, by omega⟩
    rw [if_neg hzero]
    exact List.mem_map_of_mem hmem

theorem gemmVisits_nodup (m ith : ℕ) : (gemmVisits h fp a b m ith nth).Nodup := by
  have hgroup : ∀ mi g, ∀ v ∈ (if fp.isZero (activationGroup h fp a b mi g).1 then []
      else (List.range' (h.splitRange b.n ith nth).1 ((h.splitRange b.n ith nth).2 -
        (h.splitRange b.n ith nth).1)).map fun ni => (mi, g, ni)), v.1 = mi ∧ v.2.1 = g := by
    intro mi g v hv
    split at hv
    · exact absurd hv List.not_mem_nil
    · obtain ⟨ni, -, rfl⟩ := List.mem_map.mp hv
      exact ⟨rfl, rfl⟩
  unfold gemmVisits
  refine List.nodup_flatMap.mpr ⟨fun mi _ => List.nodup_flatMap.mpr ⟨fun g _ => ?_, ?_⟩, ?_⟩
  · split
    · exact List.nodup_nil
    · refine List.Nodup.map ?_ List.nodup_range'
      intro ni ni' heq
      simpa using heq
  · refine List.nodup_range.imp fun {g g'} hne v hv hv' => ?_
    exact hne ((hgroup mi g v hv).2.symm.trans (hgroup mi g' v hv').2)
  · refine List.nodup_range.imp fun {mi mi'} hne v hv hv' => ?_
    obtain ⟨g, -, hv⟩ := List.mem_flatMap.mp hv
    obtain ⟨g', -, hv'⟩ := List.mem_flatMap.mp hv'
    exact hne ((hgroup mi g v hv).1.symm.trans (hgroup mi' g' v hv').1)

/-- **Which groups are multiplied.** Every group of every row of the worker, once for each row of the activations where
its scale is not zero, and never where it is. -/
theorem count_gemmVisits (m ith mi g ni : ℕ) : (gemmVisits h fp a b m ith nth).count (mi, g, ni) =
    if (mi < m ∧ g < b.numGroups ∧ (h.splitRange b.n ith nth).1 ≤ ni ∧ ni < (h.splitRange b.n ith nth).2) ∧
      ¬ fp.isZero (activationGroup h fp a b mi g).1 then 1 else 0 := by
  rw [(gemmVisits_nodup m ith).count]
  exact if_congr mem_gemmVisits rfl rfl

theorem flatMap_range_single {β : Type*} {f : ℕ → List β} {m i : ℕ} (hi : i < m) (h : ∀ j < m, j ≠ i → f j = []) :
    (List.range m).flatMap f = f i := by
  induction m with
  | zero => omega
  | succ m ih =>
    rw [List.range_succ, List.flatMap_append, List.flatMap_singleton]
    rcases Nat.lt_or_eq_of_le (Nat.le_of_lt_succ hi) with hlt | rfl
    · rw [ih hlt fun j hj => h j (by omega), h m (by omega) (by omega), List.append_nil]
    · rw [List.flatMap_eq_nil_iff.mpr fun j hj => ?_, List.nil_append]
      have hj := List.mem_range.mp hj
      exact h j (by omega) (by omega)

/-- The groups that are multiplied for one cell of the result, in order. -/
def cellGroups (h : Headers Bf16 F32) (fp : Fp32 F32) (a : ℕ → ℕ → Bf16) (b : BufferB F32) (mi : ℕ) : List ℕ :=
  (List.range b.numGroups).filter fun g => ¬ fp.isZero (activationGroup h fp a b mi g).1

theorem filter_gemmVisits {m ith mi ni : ℕ} (hmi : mi < m) (hlo : (h.splitRange b.n ith nth).1 ≤ ni)
    (hhi : ni < (h.splitRange b.n ith nth).2) :
    ((gemmVisits h fp a b m ith nth).filter fun v => (v.1, v.2.2) = (mi, ni)) =
      (cellGroups h fp a b mi).map fun g => (mi, g, ni) := by
  have hrows : ((List.range' (h.splitRange b.n ith nth).1 ((h.splitRange b.n ith nth).2 -
      (h.splitRange b.n ith nth).1)).filter fun ni' => ni' = ni) = [ni] := by
    have hmem : ni ∈ List.range' (h.splitRange b.n ith nth).1
        ((h.splitRange b.n ith nth).2 - (h.splitRange b.n ith nth).1) := List.mem_range'_1.mpr ⟨hlo, by omega⟩
    rw [List.filter_eq, List.count_eq_one_of_mem List.nodup_range' hmem]
    rfl
  unfold gemmVisits cellGroups
  dsimp only
  rw [List.filter_flatMap, flatMap_range_single hmi]
  · induction List.range b.numGroups with
    | nil => rfl
    | cons g gs ih =>
      rw [List.flatMap_cons, List.filter_append, ih]
      by_cases hzero : fp.isZero (activationGroup h fp a b mi g).1
      · rw [if_pos hzero, List.filter_cons_of_neg (by simpa using hzero)]
        rfl
      · rw [if_neg hzero, List.filter_cons_of_pos (by simpa using hzero), List.map_cons, List.filter_map]
        simp only [Function.comp_def, Prod.mk.injEq, true_and, hrows]
        rfl
  · intro mi' _ hne
    refine List.filter_eq_nil_iff.mpr fun v hv heq => ?_
    obtain ⟨g, -, hv⟩ := List.mem_flatMap.mp hv
    split at hv
    · exact absurd hv List.not_mem_nil
    · obtain ⟨ni', -, rfl⟩ := List.mem_map.mp hv
      exact hne (Prod.mk.inj (of_decide_eq_true heq)).1

/-- What group `g` adds to the cell of rows `mi` and `ni`. -/
def groupTerm (h : Headers Bf16 F32) (fp : Fp32 F32) (a : ℕ → ℕ → Bf16) (b : BufferB F32) (mi ni g : ℕ) : F32 :=
  let (aScale, aU8) := activationGroup h fp a b mi g
  let dot := groupDot aU8 (b.wCol ni g) b.groupSize (b.weightSums (ni * b.numGroups + g))
  fp.mul (fp.mul (fp.ofInt dot.toInt) aScale) (b.scales (ni * b.numGroups + g))

/-- **A cell of the result** is the sum, group after group, of what each group that is multiplied adds. -/
theorem gemm_cell {m ith mi ni : ℕ} {c : ℕ × ℕ → F32} (hmi : mi < m) (hlo : (h.splitRange b.n ith nth).1 ≤ ni)
    (hhi : ni < (h.splitRange b.n ith nth).2) : gemmRawint4PackedAvx512 h fp a b m ith nth c (mi, ni) =
      (cellGroups h fp a b mi).foldl (fun v g => fp.add v (groupTerm h fp a b mi ni g)) fp.zero := by
  have hfold : gemmRawint4PackedAvx512 h fp a b m ith nth c (mi, ni) = modifies
      (fun p => if p.1 < m ∧ (h.splitRange b.n ith nth).1 ≤ p.2 ∧ p.2 < (h.splitRange b.n ith nth).2 then fp.zero
        else c p) (fun v : ℕ × ℕ × ℕ => (v.1, v.2.2)) (fun v s => fp.add s (groupTerm h fp a b v.1 v.2.2 v.2.1))
      (gemmVisits h fp a b m ith nth) (mi, ni) := rfl
  rw [hfold, modifies_eq_foldl, filter_gemmVisits hmi hlo hhi, List.foldl_map, if_pos ⟨hmi, hlo, hhi⟩]

theorem biased_clamp (z : ℤ) :
    Biased (UInt8.ofBitVec (BitVec.ofInt 8 (max (-127) (min z 127))) ^^^ 0x80) (max (-127) (min z 127)) := by
  have hflip : ∀ v : BitVec 8, ((v ^^^ 0x80#8).toNat : ℤ) = v.toInt + 128 := by decide +kernel
  have hlo : -127 ≤ max (-127) (min z 127) := le_max_left _ _
  have hhi : max (-127) (min z 127) ≤ 127 := max_le (by decide) (min_le_right _ _)
  have hint : (BitVec.ofInt 8 (max (-127) (min z 127))).toInt = max (-127) (min z 127) :=
    BitVec.toInt_ofInt_eq_self (by decide) (by norm_num) (by norm_num)
  exact ⟨⟨hlo, hhi⟩, (hflip _).trans (congrArg (· + 128) hint)⟩

/-- The bytes the kernel multiplies stand for numbers from -127 to 127. -/
theorem activationGroup_biased (mi g k : ℕ) : ∃ q, Biased ((activationGroup h fp a b mi g).2 k) q := by
  unfold activationGroup quantizeActivationGroupU8
  dsimp only
  split
  · exact ⟨0, ⟨by decide, by decide⟩, rfl⟩
  · exact ⟨_, biased_clamp _⟩

/-- What the workers leave of a table that each fills row by row. -/
theorem runs_rows {α κ : Type*} [DecidableEq κ] (hh : h.Lawful) (dst : κ) {n cols : ℕ} (hnth : 0 < nth)
    (val : ℕ → ℕ → α) {mem mem' : κ → ℕ → α}
    (hrun : Runs ((List.range nth).flatMap fun ith => (List.range' (h.splitRange n ith nth).1
      ((h.splitRange n ith nth).2 - (h.splitRange n ith nth).1)).map fun ni => ⟨dst, ni * cols, cols, val ni⟩) mem mem')
    {ni j : ℕ} (hni : ni < n) (hj : j < cols) : mem' dst (ni * cols + j) = val ni j := by
  refine hrun.eq_of_agree ?_ fun c hc hhit => ?_
  · obtain ⟨ith, hith, hlo, hhi⟩ := hh.covers n nth ni hnth hni
    refine ⟨_, List.mem_flatMap.mpr ⟨ith, List.mem_range.mpr hith, List.mem_map_of_mem
      (List.mem_range'_1.mpr ⟨hlo, by omega⟩)⟩, rfl, ?_, ?_⟩
    · exact Nat.le_add_right _ _
    · exact Nat.add_lt_add_left hj _
  · obtain ⟨ith, -, hc⟩ := List.mem_flatMap.mp hc
    obtain ⟨ni', -, rfl⟩ := List.mem_map.mp hc
    obtain ⟨-, hlo, hhi⟩ := hhit
    simp only at hlo hhi
    have hdiv : (ni * cols + j) / cols = ni := (piece_div_mod hj).1
    have hdiv' : (ni * cols + j) / cols = ni' := Nat.div_eq_of_lt_le hlo (by rw [Nat.succ_mul]; exact hhi)
    obtain rfl := hdiv'.symm.trans hdiv
    simp only [Nat.add_sub_cancel_left]

theorem bufferB_ok {k groupSize : ℕ} (h : GeneralMOEConfig.bufferB k groupSize = .ok ()) :
    0 < groupSize ∧ groupSize % 32 = 0 ∧ groupSize ≤ 256 ∧ k % groupSize = 0 := by
  unfold GeneralMOEConfig.bufferB at h
  split at h
  · cases h
  · split at h
    · cases h
    · split at h
      · cases h
      · unfold GeneralMOEConfig.maxSupportedGroupSize at *
        omega

/-- A group has an even number of weights, and begins at an even one. -/
theorem accepted_even (b : BufferB F32) : b.groupSize % 2 = 0 ∧ ∀ g, g * b.groupSize % 2 = 0 := by
  obtain ⟨-, hgroup, -, -⟩ := bufferB_ok b.accepted
  have heven : b.groupSize % 2 = 0 := by omega
  refine ⟨heven, fun g => ?_⟩
  rw [Nat.mul_mod, heven, Nat.mul_zero, Nat.zero_mod]

/-- The rows of a filled buffer, group by group, and the sums of the groups. -/
theorem filled_group (hh : h.Lawful) (hnth : 0 < nth) (hfill : b₀.Filled h nth srcPacked srcScales b) {ni g : ℕ}
    (hni : ni < b.n) (hg : g < b.numGroups) :
    (∀ k < b.groupSize, weightAt (b.wCol ni g) k =
      weightAt (fun j => srcPacked (ni * (b.k / 2) + j)) (g * b.groupSize + k)) ∧
    b.weightSums (ni * b.numGroups + g) =
      BitVec.ofInt 16 (∑ k ∈ Finset.range b.groupSize, weightAt (b.wCol ni g) k) := by
  obtain ⟨heven, hbases⟩ := accepted_even b
  have hbase := hbases g
  have hend : g * b.groupSize + b.groupSize ≤ b.k := by
    rw [← Nat.succ_mul]
    exact (Nat.mul_le_mul_right _ hg).trans (Nat.div_mul_le_self _ _)
  have hweights : ∀ k < b.groupSize, weightAt (b.wCol ni g) k =
      weightAt (fun j => srcPacked (ni * (b.k / 2) + j)) (g * b.groupSize + k) := by
    intro k hkg
    have hbyte : (g * b.groupSize + k) / 2 = g * b.groupSize / 2 + k / 2 := by omega
    have hnib : (g * b.groupSize + k) % 2 = k % 2 := by omega
    have hcell : b.qweightPacked (ni * (b.k / 2) + (g * b.groupSize + k) / 2) =
        srcPacked (ni * (b.k / 2) + (g * b.groupSize + k) / 2) := by
      have hrun := hfill.weights
      rw [← hfill.n, ← hfill.k, ← hfill.groupSize] at hrun
      exact runs_rows hh () hnth (fun ni j => srcPacked (ni * (b.k / 2) + j)) hrun hni (by omega)
    unfold weightAt BufferB.wCol
    rw [hnib, hbyte, Nat.add_assoc]
    rw [hbyte] at hcell
    rw [hcell]
  refine ⟨hweights, ?_⟩
  have hrun := hfill.sums
  rw [← hfill.n, ← hfill.k, ← hfill.groupSize] at hrun
  have hcell := runs_rows hh () hnth (fun ni g => BitVec.ofInt 16 (groupSum
    (fun j => srcPacked (ni * (b.k / 2) + j)) (g * b.groupSize) b.groupSize)) hrun hni hg
  refine hcell.trans ?_
  rw [groupSum_eq _ hbase heven]
  exact congrArg (BitVec.ofInt 16) (Finset.sum_congr rfl fun k hk => (hweights k (Finset.mem_range.mp hk)).symm)

/-- **The packed dot product.** On the buffer that `from_raw_mat` leaves, for every group of every row, every register is
exact and the integer formed is the dot product with the weights on disk, whatever the quantised activations; and of the
rows of its range the kernel multiplies every group whose activations have a scale other than zero, exactly once for
each row of the activations, and no other. -/
theorem packedDot (hh : h.Lawful) (fp : Fp32 F32) (a : ℕ → ℕ → Bf16) (hnth : 0 < nth)
    (hfill : b₀.Filled h nth srcPacked srcScales b) :
    (∀ ni < b.n, ∀ g < b.numGroups,
      (∀ k < b.groupSize, weightAt (b.wCol ni g) k =
        weightAt (fun j => srcPacked (ni * (b.k / 2) + j)) (g * b.groupSize + k)) ∧
      ∀ (aU8 : ℕ → UInt8) (q : ℕ → ℤ), (∀ k < b.groupSize, Biased (aU8 k) (q k)) →
        GroupExact aU8 (b.wCol ni g) b.groupSize (b.weightSums (ni * b.numGroups + g)) q) ∧
    (∀ mi g k, ∃ q, Biased ((activationGroup h fp a b mi g).2 k) q) ∧
    ∀ m ith nth' mi g ni, (gemmVisits h fp a b m ith nth').count (mi, g, ni) =
      if (mi < m ∧ g < b.numGroups ∧ (h.splitRange b.n ith nth').1 ≤ ni ∧ ni < (h.splitRange b.n ith nth').2) ∧
        ¬ fp.isZero (activationGroup h fp a b mi g).1 then 1 else 0 := by
  obtain ⟨-, hgroup, hle, -⟩ := bufferB_ok b.accepted
  refine ⟨fun ni hni g hg => ?_, fun mi g k => activationGroup_biased mi g k, fun m ith nth' mi g ni => ?_⟩
  · obtain ⟨hweights, hsums⟩ := filled_group hh hnth hfill hni hg
    exact ⟨hweights, fun aU8 q hq => groupExact hgroup hle hsums hq⟩
  · exact count_gemmVisits m ith mi g ni

end Visits

/-! ## A row of 32 weights -/

/-- `from_raw_mat` always leaves something. -/
theorem exists_filled (h : Headers Bf16 F32) (nth : ℕ) (srcPacked : ℕ → UInt8) (srcScales : ℕ → Bf16)
    (b₀ : BufferB F32) : ∃ b, b₀.Filled h nth srcPacked srcScales b := by
  obtain ⟨weights, hweights⟩ := exists_runs ((List.range nth).flatMap fun ith =>
    (fromRawMat h () b₀.n b₀.k b₀.groupSize srcPacked srcScales ith nth).weights) fun _ => b₀.qweightPacked
  obtain ⟨scales, hscales⟩ := exists_runs ((List.range nth).flatMap fun ith =>
    (fromRawMat h () b₀.n b₀.k b₀.groupSize srcPacked srcScales ith nth).scales) fun _ => b₀.scales
  obtain ⟨sums, hsums⟩ := exists_runs ((List.range nth).flatMap fun ith =>
    fromRawMatSums h () b₀.n b₀.k b₀.groupSize srcPacked ith nth) fun _ => b₀.weightSums
  exact ⟨{ b₀ with qweightPacked := weights (), scales := scales (), weightSums := sums () }, rfl, rfl, rfl, hweights,
    hscales, hsums⟩

/-- Rational numbers for floats. -/
def ratHeaders : Headers ℚ ℚ := ⟨id, id, bitHeaders.splitRange⟩

def ratOps : Fp32 ℚ where
  zero := 0
  fltMin := 1 / 2 ^ 126
  fabs := abs
  max := max
  le x y := decide (x ≤ y)
  isZero x := decide (x = 0)
  add := (· + ·)
  mul := (· * ·)
  div := (· / ·)
  ofInt := Int.cast
  lrint x := (x + 1 / 2).floor

def oneRow : BufferB ℚ := ⟨1, 32, 32, rfl, fun _ => 0, fun _ => 0, fun _ => 0⟩

/-- Weights -1 and 7 in turn against activations of 127: every register is exact. -/
theorem packedDot_row : ∃ b, oneRow.Filled ratHeaders 1 (fun _ => 0x7F) (fun _ => 1) b ∧
    GroupExact (fun _ => 255) (b.wCol 0 0) b.groupSize (b.weightSums (0 * b.numGroups + 0)) fun _ => 127 := by
  have hlawful : ratHeaders.Lawful := ⟨fun _ => rfl, bitHeaders_lawful.covers⟩
  obtain ⟨b, hfill⟩ := exists_filled ratHeaders 1 (fun _ => 0x7F) (fun _ => 1) oneRow
  have hgroups : b.numGroups = 1 := by
    unfold BufferB.numGroups
    rw [hfill.k, hfill.groupSize]
    rfl
  have hrow : 0 < b.n := hfill.n ▸ (by decide : 0 < oneRow.n)
  obtain ⟨hdot, -, -⟩ := packedDot hlawful ratOps (fun _ _ => 1) Nat.one_pos hfill
  exact ⟨b, hfill, (hdot 0 hrow 0 (by omega)).2 (fun _ => 255) (fun _ => 127)
    fun k _ => ⟨⟨by decide, by decide⟩, rfl⟩⟩

/-- A group of zero activations is passed over: of the one row and the one group, nothing is multiplied. -/
theorem gemmVisits_zero : ratHeaders.splitRange oneRow.n 0 1 = (0, 1) ∧ oneRow.numGroups = 1 ∧
    (gemmVisits ratHeaders ratOps (fun _ _ => 0) oneRow 1 0 1).count (0, 0, 0) = 0 := by
  decide +kernel

end ExpertServe.PackedInt4
