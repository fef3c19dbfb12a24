import ExpertServe.Kernel.PackedDot

/-!
# The weight sums of external weights

A scale-only buffer points at packed rows that lie elsewhere, and `finalize_external` fills its scales and weight sums.
`from_raw_mat` and the kernel read a nibble in two's complement; `finalize_external` takes 8 away from it.

* `BufferB.Filled.sumsUnpacked`: `from_raw_mat` leaves the sums of what the kernel multiplies;
* `finalizeExternal_toInt`: how far off `finalize_external` is, group by group;
* `weightSumsAgree_iff`: on which matrices the two leave the same table;
* `finalizeExternal_dot_iff`: on which groups of external weights the kernel forms the dot product.
-/

namespace ExpertServe.PackedInt4

open Lib

variable {Bf16 F32 : Type*}

/-! ## The two tables -/

/-- The sum of a group of a row, as `finalize_external` forms it: a byte at a time. -/
def externalSum (srcRow : ℕ → UInt8) (byteBase groupSize : ℕ) : ℤ :=
  ((List.range (groupSize / 2)).map fun bi =>
    let packed := srcRow (byteBase + bi)
    let n0 : ℤ := (packed &&& 0x0F).toNat
    let n1 : ℤ := ((packed >>> 4) &&& 0x0F).toNat
    (n0 - 8) + (n1 - 8)).sum

/-- The scale-only `BufferB` of the sizes of `b`: its weights lie outside, its tables hold anything. -/
def BufferB.scaleOnly (b : BufferB F32) (qweightPacked : ℕ → UInt8) (scales : ℕ → F32) (weightSums : ℕ → BitVec 16) :
    BufferB F32 :=
  { b with qweightPacked, scales, weightSums }

/-- `finalize_external`: all rows, in order. -/
def BufferB.finalizeExternal (h : Headers Bf16 F32) (b : BufferB F32) (srcScales : ℕ → Bf16) : BufferB F32 :=
  let rowBytes := b.k / 2
  { b with
    scales := updates b.scales ((List.range (b.n * b.numGroups)).map fun i => (i, h.bf16ToFp32 (srcScales i)))
    weightSums := updates b.weightSums ((List.range b.n).flatMap fun ni => (List.range b.numGroups).map fun g =>
      let byteBase := g * b.groupSize / 2
      (ni * b.numGroups + g,
        BitVec.ofInt 16 (externalSum (fun j => b.qweightPacked (ni * rowBytes + j)) byteBase b.groupSize))) }

/-- The sum of the bytes that `unpack_int4_chunk` hands to the dot product for a group. -/
def unpackedSum (wCol : ℕ → UInt8) (groupSize : ℕ) : ℤ := ∑ k ∈ Finset.range groupSize, (weightByte wCol k).toInt

/-- The table holds the sums of what the kernel multiplies. -/
def BufferB.SumsUnpacked (b : BufferB F32) : Prop :=
  ∀ ni < b.n, ∀ g < b.numGroups,
    (b.weightSums (ni * b.numGroups + g)).toInt = unpackedSum (b.wCol ni g) b.groupSize

/-- A buffer of `from_raw_mat` and one of `finalize_external` have one table, the sums of what the kernel multiplies. -/
structure WeightSumsAgree (b e : BufferB F32) : Prop where
  same : ∀ ni < b.n, ∀ g < b.numGroups, e.weightSums (ni * b.numGroups + g) = b.weightSums (ni * b.numGroups + g)
  raw : b.SumsUnpacked
  external : e.SumsUnpacked

/-- The nibbles of a group from 8 on: its negative weights. -/
def highNibbles (wCol : ℕ → UInt8) (groupSize : ℕ) : ℕ :=
  ((Finset.range groupSize).filter fun k => 8 ≤ nibble (wCol (k / 2)) (k % 2)).card

/-- Half of the weights of every group of every row are negative. -/
def BufferB.Balanced (b : BufferB F32) : Prop :=
  ∀ ni < b.n, ∀ g < b.numGroups, 2 * highNibbles (b.wCol ni g) b.groupSize = b.groupSize

/-! ## Sums of a group -/

theorem unpackedSum_eq (wCol : ℕ → UInt8) (groupSize : ℕ) :
    unpackedSum wCol groupSize = ∑ k ∈ Finset.range groupSize, weightAt wCol k :=
  Finset.sum_congr rfl fun k _ => weightByte_toInt wCol k

/-- The weights from an even place on are those of the bytes from half of it on. -/
theorem weightAt_add (row : ℕ → UInt8) {base : ℕ} (hbase : base % 2 = 0) (k : ℕ) :
    weightAt row (base + k) = weightAt (fun i => row (base / 2 + i)) k := by
  have hbyte : (base + k) / 2 = base / 2 + k / 2 := by omega
  have hnib : (base + k) % 2 = k % 2 := by omega
  unfold weightAt
  rw [hbyte, hnib]

/-- **What `finalize_external` sums up** are the nibbles of the group, each less 8. -/
theorem externalSum_eq (srcRow : ℕ → UInt8) (byteBase : ℕ) {groupSize : ℕ} (hgroup : groupSize % 2 = 0) :
    externalSum srcRow byteBase groupSize =
      ∑ k ∈ Finset.range groupSize, ((nibble (srcRow (byteBase + k / 2)) (k % 2) : ℤ) - 8) := by
  have hpairs : groupSize = 2 * (groupSize / 2) := by omega
  conv_rhs => rw [hpairs]
  rw [← sum_range_pairs fun k => ((nibble (srcRow (byteBase + k / 2)) (k % 2) : ℤ) - 8)]
  unfold externalSum
  refine congrArg List.sum (List.map_congr_left fun bi _ => ?_)
  have hlow : 2 * bi / 2 = bi := by omega
  have hhigh : (2 * bi + 1) / 2 = bi := by omega
  have heven : 2 * bi % 2 = 0 := by omega
  have hodd : (2 * bi + 1) % 2 = 1 := by omega
  dsimp only
  rw [hlow, hhigh, heven, hodd, mask_low, mask_high]

theorem abs_externalSum_le (srcRow : ℕ → UInt8) (byteBase : ℕ) {groupSize : ℕ} (hgroup : groupSize % 2 = 0)
    (hle : groupSize ≤ 256) : |externalSum srcRow byteBase groupSize| ≤ 2048 := by
  have hterm : ∀ k < groupSize, |(nibble (srcRow (byteBase + k / 2)) (k % 2) : ℤ) - 8| ≤ 8 := by
    intro k _
    have hlt := nibble_lt (srcRow (byteBase + k / 2)) (k % 2)
    apply abs_le.mpr
    omega
  have hsum := abs_sum_le hterm
  rw [externalSum_eq srcRow byteBase hgroup]
  omega

/-- The bias shows: 8 too much for every negative weight, 8 too little for every other. -/
theorem externalSum_eq_add (srcRow : ℕ → UInt8) (byteBase : ℕ) {groupSize : ℕ} (hgroup : groupSize % 2 = 0) :
    externalSum srcRow byteBase groupSize =
      ∑ k ∈ Finset.range groupSize, weightAt (fun i => srcRow (byteBase + i)) k +
        (16 * highNibbles (fun i => srcRow (byteBase + i)) groupSize - 8 * groupSize) := by
  rw [externalSum_eq srcRow byteBase hgroup, sum_biased, Finset.card_range]
  rfl

/-! ## The table of `from_raw_mat` -/

section Table

variable {h : Headers Bf16 F32} {b₀ b : BufferB F32} {nth : ℕ} {srcPacked : ℕ → UInt8} {srcScales : ℕ → Bf16}
  {ni g : ℕ}

/-- **`from_raw_mat` leaves the sums of what the kernel multiplies.** -/
theorem BufferB.Filled.sumsUnpacked (hfill : b₀.Filled h nth srcPacked srcScales b) (hh : h.Lawful) (hnth : 0 < nth) :
    b.SumsUnpacked := by
  intro ni hni g hg
  obtain ⟨-, -, hle, -⟩ := bufferB_ok b.accepted
  obtain ⟨-, htable⟩ := filled_group hh hnth hfill hni hg
  rw [htable, unpackedSum_eq]
  exact weightSum_toInt (b.wCol ni g) hle

/-- The rows that `from_raw_mat` copied sum up as those outside. -/
theorem BufferB.Filled.unpackedSum_scaleOnly (hfill : b₀.Filled h nth srcPacked srcScales b) (hh : h.Lawful)
    (hnth : 0 < nth) (scales : ℕ → F32) (sums : ℕ → BitVec 16) (hni : ni < b.n) (hg : g < b.numGroups) :
    unpackedSum (b.wCol ni g) b.groupSize =
      unpackedSum ((b₀.scaleOnly srcPacked scales sums).wCol ni g) b₀.groupSize := by
  obtain ⟨hweights, -⟩ := filled_group hh hnth hfill hni hg
  rw [unpackedSum_eq, unpackedSum_eq, ← hfill.groupSize]
  refine Finset.sum_congr rfl fun k hk => ?_
  rw [hweights k (Finset.mem_range.mp hk), weightAt_add _ ((accepted_even b).2 g), hfill.k, hfill.groupSize]
  unfold BufferB.wCol BufferB.scaleOnly
  simp only [Nat.add_assoc]

/-! ## The table of `finalize_external` -/

/-- What the loop leaves of a group. -/
theorem finalizeExternal_entry (e : BufferB F32) (hni : ni < e.n) (hg : g < e.numGroups) :
    (e.finalizeExternal h srcScales).weightSums (ni * e.numGroups + g) =
      BitVec.ofInt 16 (externalSum (fun j => e.qweightPacked (ni * (e.k / 2) + j)) (g * e.groupSize / 2)
        e.groupSize) := by
  unfold BufferB.finalizeExternal
  apply updates_of_agree
  · refine ⟨_, List.mem_flatMap.mpr ⟨ni, List.mem_range.mpr hni, List.mem_map_of_mem (List.mem_range.mpr hg)⟩, rfl⟩
  · intro p hp hkey
    obtain ⟨ni', -, hp⟩ := List.mem_flatMap.mp hp
    obtain ⟨g', hg', rfl⟩ := List.mem_map.mp hp
    have hplace := piece_div_mod (t := ni) hg
    have hplace' := piece_div_mod (t := ni') (List.mem_range.mp hg')
    obtain rfl : ni' = ni := hplace'.1.symm.trans ((congrArg (· / e.numGroups) hkey).trans hplace.1)
    obtain rfl : g' = g := hplace'.2.symm.trans ((congrArg (· % e.numGroups) hkey).trans hplace.2)
    rfl

/-- **How far off it is**: 8 for every negative weight of the group, less 8 for every other. -/
theorem finalizeExternal_toInt (e : BufferB F32) (hni : ni < e.n) (hg : g < e.numGroups) :
    ((e.finalizeExternal h srcScales).weightSums (ni * e.numGroups + g)).toInt =
      unpackedSum (e.wCol ni g) e.groupSize + (16 * highNibbles (e.wCol ni g) e.groupSize - 8 * e.groupSize) := by
  obtain ⟨-, -, hle, -⟩ := bufferB_ok e.accepted
  have heven := (accepted_even e).1
  have hcol : (fun i => e.qweightPacked (ni * (e.k / 2) + (g * e.groupSize / 2 + i))) = e.wCol ni g := by
    funext i
    exact congrArg e.qweightPacked (Nat.add_assoc _ _ _).symm
  have hbound := abs_le.mp (abs_externalSum_le (fun j => e.qweightPacked (ni * (e.k / 2) + j))
    (g * e.groupSize / 2) heven hle)
  rw [finalizeExternal_entry e hni hg,
    BitVec.toInt_ofInt_eq_self (by decide) (by norm_num; omega) (by norm_num; omega), externalSum_eq_add _ _ heven,
    hcol, unpackedSum_eq]

/-- Right exactly where half of the weights of the group are negative. -/
theorem finalizeExternal_toInt_iff (e : BufferB F32) (hni : ni < e.n) (hg : g < e.numGroups) :
    ((e.finalizeExternal h srcScales).weightSums (ni * e.numGroups + g)).toInt = unpackedSum (e.wCol ni g) e.groupSize ↔
      2 * highNibbles (e.wCol ni g) e.groupSize = e.groupSize := by
  rw [finalizeExternal_toInt e hni hg]
  omega

/-- `finalize_external` leaves the sums of what the kernel multiplies on balanced weights, and on no others. -/
theorem finalizeExternal_sumsUnpacked_iff (e : BufferB F32) :
    (e.finalizeExternal h srcScales).SumsUnpacked ↔ e.Balanced := by
  constructor
  · intro hsums ni hni g hg
    exact (finalizeExternal_toInt_iff e hni hg).mp (hsums ni hni g hg)
  · intro hbalanced ni hni g hg
    exact (finalizeExternal_toInt_iff e hni hg).mpr (hbalanced ni hni g hg)

/-- **External weights in the kernel.** Whatever the quantised activations, the kernel forms the dot product of a group
exactly when half of its weights are negative. -/
theorem finalizeExternal_dot_iff (e : BufferB F32) (hni : ni < e.n) (hg : g < e.numGroups) {aU8 : ℕ → UInt8} {q : ℕ → ℤ}
    (hq : ∀ k < e.groupSize, Biased (aU8 k) (q k)) :
    (groupDot aU8 (e.wCol ni g) e.groupSize
        ((e.finalizeExternal h srcScales).weightSums (ni * e.numGroups + g))).toInt =
      ∑ k ∈ Finset.range e.groupSize, q k * weightAt (e.wCol ni g) k ↔
    2 * highNibbles (e.wCol ni g) e.groupSize = e.groupSize := by
  obtain ⟨-, hgroup, hle, -⟩ := bufferB_ok e.accepted
  rw [groupDot_eq_iff hgroup hle hq, ← unpackedSum_eq]
  exact finalizeExternal_toInt_iff e hni hg

/-- **The two builders.** Out of one packed matrix, `from_raw_mat` and `finalize_external` leave the same weight sums,
those of the bytes that the kernel multiplies, exactly when half of the weights of every group of every row are
negative. -/
theorem weightSumsAgree_iff (hh : h.Lawful) (hnth : 0 < nth) (hfill : b₀.Filled h nth srcPacked srcScales b)
    (scales : ℕ → F32) (sums : ℕ → BitVec 16) :
    WeightSumsAgree b ((b₀.scaleOnly srcPacked scales sums).finalizeExternal h srcScales) ↔
      (b₀.scaleOnly srcPacked scales sums).Balanced := by
  have hgroups : b.numGroups = (b₀.scaleOnly srcPacked scales sums).numGroups := by
    unfold BufferB.numGroups
    rw [hfill.k, hfill.groupSize]
    rfl
  constructor
  · intro hagree
    exact (finalizeExternal_sumsUnpacked_iff _).mp hagree.external
  · intro hbalanced
    have hraw := hfill.sumsUnpacked hh hnth
    have hexternal : ((b₀.scaleOnly srcPacked scales sums).finalizeExternal h srcScales).SumsUnpacked :=
      (finalizeExternal_sumsUnpacked_iff _).mpr hbalanced
    refine ⟨fun ni hni g hg => BitVec.eq_of_toInt_eq ?_, hraw, hexternal⟩
    rw [hraw ni hni g hg, hfill.unpackedSum_scaleOnly hh hnth scales sums hni hg]
    rw [hfill.n] at hni
    rw [hgroups] at hg ⊢
    exact hexternal ni hni g hg

end Table

/-! ## A row of 32 weights -/

/-- Weights -8 and 0 in turn: the tables agree. -/
theorem weightSumsAgree_alternating : ∃ b, oneRow.Filled ratHeaders 1 (fun _ => 0x08) (fun _ => 1) b ∧
    WeightSumsAgree b
      ((oneRow.scaleOnly (fun _ => 0x08) (fun _ => 0) fun _ => 0).finalizeExternal ratHeaders fun _ => 1) := by
  have hlawful : ratHeaders.Lawful := ⟨fun _ => rfl, bitHeaders_lawful.covers⟩
  obtain ⟨b, hfill⟩ := exists_filled ratHeaders 1 (fun _ => 0x08) (fun _ => 1) oneRow
  refine ⟨b, hfill, (weightSumsAgree_iff hlawful Nat.one_pos hfill (fun _ => 0) fun _ => 0).mpr ?_⟩
  unfold BufferB.Balanced
  decide +kernel

/-- 32 weights of zero: `from_raw_mat` leaves their sum, `finalize_external` leaves -256. -/
theorem weightSumsAgree_fails_zeros : ∃ b, oneRow.Filled ratHeaders 1 (fun _ => 0) (fun _ => 1) b ∧
    let e := (oneRow.scaleOnly (fun _ => 0) (fun _ => 0) fun _ => 0).finalizeExternal ratHeaders fun _ => 1
    (b.weightSums 0).toInt = 0 ∧ (e.weightSums 0).toInt = -256 ∧ ¬ WeightSumsAgree b e := by
  have hlawful : ratHeaders.Lawful := ⟨fun _ => rfl, bitHeaders_lawful.covers⟩
  obtain ⟨b, hfill⟩ := exists_filled ratHeaders 1 (fun _ => 0) (fun _ => 1) oneRow
  have hrow : 0 < b.n := hfill.n ▸ (by decide : 0 < oneRow.n)
  have hgroup : 0 < b.numGroups := by
    unfold BufferB.numGroups
    rw [hfill.k, hfill.groupSize]
    decide
  have hraw : (b.weightSums 0).toInt = 0 := by
    have hsum := hfill.sumsUnpacked hlawful Nat.one_pos 0 hrow 0 hgroup
    rw [Nat.zero_mul] at hsum
    rw [hsum, hfill.unpackedSum_scaleOnly hlawful Nat.one_pos (fun _ => 0) (fun _ => 0) hrow hgroup]
    decide +kernel
  have hexternal : (((oneRow.scaleOnly (fun _ => 0) (fun _ => 0) fun _ => 0).finalizeExternal ratHeaders
      fun _ => 1).weightSums 0).toInt = -256 := by
    decide +kernel
  refine ⟨b, hfill, hraw, hexternal, fun hagree => ?_⟩
  have hsame := congrArg BitVec.toInt (hagree.same 0 hrow 0 hgroup)
  rw [Nat.zero_mul] at hsame
  have hclash : (-256 : ℤ) = 0 := hexternal.symm.trans (hsame.trans hraw)
  omega

end ExpertServe.PackedInt4
