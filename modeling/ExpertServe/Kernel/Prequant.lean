import ExpertServe.Kernel.ExpertBytes
import ExpertServe.Lib.Rank
import ExpertServe.Lib.Workers

/-!
# Activations quantised ahead of the kernel

With the `prequant` option the workers that copy the activations into a `BufferA` also quantise them, and the kernel
reads the bytes and scales it would otherwise compute for itself.

* `bufferASetData_fits`: where the three parts of the buffer lie;
* `MatStep`, `fromMatProgram`: what each worker of `from_mat` does, instruction by instruction;
* `gemmPrequant_eq`: whatever the workers' order, the kernel's result is that of the kernel on the activations.
-/

namespace ExpertServe.PackedInt4

open Lib

variable {Bf16 F32 : Type*}

/-! ## The buffer -/

/-- `BufferA`: the activations, and their groups quantised. -/
structure BufferA (Bf16 F32 : Type*) where
  maxM : ℕ
  k : ℕ
  groupSize : ℕ
  data : ℕ → Bf16
  quantized : ℕ → UInt8
  quantScales : ℕ → F32

def BufferA.numGroups (a : BufferA Bf16 F32) : ℕ := a.k / a.groupSize

/-- `BufferA::required_size`. -/
def bufferARequiredSize (m k groupSize : ℕ) : ℕ :=
  let bf16Bytes := m * k * 2
  let quantBytes := m * k
  let scaleBytes := m * (k / groupSize) * 4
  bf16Bytes + quantBytes + scaleBytes + 128

/-- `(cursor + 63) & ~63`. -/
def lineRoundUp (cursor : ℕ) : ℕ := (cursor + 63) / 64 * 64

/-- `BufferA::set_data`: where the bytes and the scales begin, after the activations at `ptr`. -/
def bufferASetData (maxM k ptr : ℕ) : ℕ × ℕ :=
  let quantized := lineRoundUp (ptr + maxM * k * 2)
  (quantized, lineRoundUp (quantized + maxM * k))

/-! ## Filling it -/

/-- An instruction of `from_mat`: the copy of a row, or the quantisation of a group of a row. -/
inductive MatStep where
  | copy (mi : ℕ)
  | quantize (mi g : ℕ)

/-- What worker `ith` of `nth` does. A single worker copies all rows at once. -/
def fromMatProgram (h : Headers Bf16 F32) (numGroups m nth : ℕ) (prequant : Bool) (ith : ℕ) : List MatStep :=
  let (start, stop) := h.splitRange m ith nth
  let copied := if ith = 0 ∧ nth = 1 then List.range m else List.range' start (stop - start)
  copied.map .copy ++ if prequant then (List.range' start (stop - start)).flatMap fun mi =>
    (List.range numGroups).map (.quantize mi) else []

/-- `len` cells from `off` on, of which cell `off + i` becomes `val i`. -/
def overwrite {β : Type*} (mem : ℕ → β) (off len : ℕ) (val : ℕ → β) (p : ℕ) : β :=
  if off ≤ p ∧ p < off + len then val (p - off) else mem p

/-- The scale and the bytes of a group of a row of `data`. -/
def BufferA.quantizeGroup (h : Headers Bf16 F32) (fp : Fp32 F32) (a : BufferA Bf16 F32) (mi g : ℕ) : F32 × (ℕ → UInt8) :=
  quantizeActivationGroupU8 fp (fun i => h.bf16ToFp32 (a.data (mi * a.k + g * a.groupSize + i))) a.groupSize

/-- One instruction, on the activations `src`. -/
def MatStep.exec (h : Headers Bf16 F32) (fp : Fp32 F32) (src : ℕ → Bf16) (a : BufferA Bf16 F32) :
    MatStep → BufferA Bf16 F32
  | .copy mi => { a with data := overwrite a.data (mi * a.k) a.k fun i => src (mi * a.k + i) }
  | .quantize mi g =>
    { a with
      quantScales := Function.update a.quantScales (mi * a.numGroups + g) (a.quantizeGroup h fp mi g).1
      quantized := overwrite a.quantized (mi * a.k + g * a.groupSize) a.groupSize (a.quantizeGroup h fp mi g).2 }

/-- `from_mat` by `nth` workers that take turns. -/
def fromMat (h : Headers Bf16 F32) (fp : Fp32 F32) (prequant : Bool) (src : ℕ → Bf16) (m : ℕ) {nth : ℕ}
    (a : BufferA Bf16 F32) (turns : List (Fin nth)) : Shop (Fin nth) (BufferA Bf16 F32) :=
  turns.foldl (work (fun ith => fromMatProgram h a.numGroups m nth prequant ith) (MatStep.exec h fp src)) (opened a)

/-- All workers are through. -/
def FromMatDone (h : Headers Bf16 F32) (fp : Fp32 F32) (prequant : Bool) (src : ℕ → Bf16) (m : ℕ) {nth : ℕ}
    (a : BufferA Bf16 F32) (turns : List (Fin nth)) : Prop :=
  ∀ ith : Fin nth, (fromMatProgram h a.numGroups m nth prequant ith).length ≤
    (fromMat h fp prequant src m a turns).done ith

/-! ## The kernel -/

/-- `gemm_rawint4_packed_avx512` with `group mi g` for the scale and the bytes of a group. -/
def gemmOn (h : Headers Bf16 F32) (fp : Fp32 F32) (group : ℕ → ℕ → F32 × (ℕ → UInt8)) (b : BufferB F32) (m ith nth : ℕ)
    (c : ℕ × ℕ → F32) : ℕ × ℕ → F32 :=
  let (start, stop) := h.splitRange b.n ith nth
  let visits := (List.range m).flatMap fun mi => (List.range b.numGroups).flatMap fun g =>
    if fp.isZero (group mi g).1 then [] else (List.range' start (stop - start)).map fun ni => (mi, g, ni)
  visits.foldl (fun c (mi, g, ni) =>
    let (aScale, aU8) := group mi g
    let dot := groupDot aU8 (b.wCol ni g) b.groupSize (b.weightSums (ni * b.numGroups + g))
    let term := fp.mul (fp.mul (fp.ofInt dot.toInt) aScale) (b.scales (ni * b.numGroups + g))
    Function.update c (mi, ni) (fp.add (c (mi, ni)) term))
    fun p => if p.1 < m ∧ start ≤ p.2 ∧ p.2 < stop then fp.zero else c p

/-- What the kernel takes for a group: the buffer's, or what it quantises itself. -/
def BufferA.kernelGroup (h : Headers Bf16 F32) (fp : Fp32 F32) (prequant : Bool) (a : BufferA Bf16 F32)
    (b : BufferB F32) (mi g : ℕ) : F32 × (ℕ → UInt8) :=
  if prequant then
    (a.quantScales (mi * b.numGroups + g), fun i => a.quantized (mi * a.k + g * b.groupSize + i))
  else quantizeActivationGroupU8 fp (fun i => h.bf16ToFp32 (a.data (mi * a.k + g * b.groupSize + i))) b.groupSize

/-- The kernel with the option on or off. -/
def gemmPrequant (h : Headers Bf16 F32) (fp : Fp32 F32) (prequant : Bool) (a : BufferA Bf16 F32) (b : BufferB F32)
    (m ith nth : ℕ) (c : ℕ × ℕ → F32) : ℕ × ℕ → F32 :=
  gemmOn h fp (a.kernelGroup h fp prequant b) b m ith nth c

/-! ## Where the parts lie -/

section Layout

theorem lineRoundUp_spec (cursor : ℕ) : cursor ≤ lineRoundUp cursor ∧ lineRoundUp cursor ≤ cursor + 63 ∧
    64 ∣ lineRoundUp cursor := by
  unfold lineRoundUp
  refine ⟨by omega, by omega, Nat.dvd_mul_left ..⟩

/-- **The parts of a buffer** lie one behind the other within its size, wherever it begins; and every vector of bytes
that the kernel loads is aligned. -/
theorem bufferASetData_fits (maxM k groupSize ptr : ℕ) :
    let (quantized, quantScales) := bufferASetData maxM k ptr
    ptr + maxM * k * 2 ≤ quantized ∧ quantized + maxM * k ≤ quantScales ∧
      quantScales + maxM * (k / groupSize) * 4 ≤ ptr + bufferARequiredSize maxM k groupSize ∧
      (GeneralMOEConfig.bufferB k groupSize = .ok () → ∀ mi g c, 32 ∣ quantized + mi * k + g * groupSize + 32 * c) := by
  have hfirst := lineRoundUp_spec (ptr + maxM * k * 2)
  have hsecond := lineRoundUp_spec (lineRoundUp (ptr + maxM * k * 2) + maxM * k)
  refine ⟨hfirst.1, hsecond.1, ?_, fun hok mi g c => ?_⟩
  · unfold bufferARequiredSize
    dsimp only
    omega
  · obtain ⟨-, hgroup, -, hk⟩ := bufferB_ok hok
    have hgroup : 32 ∣ groupSize := Nat.dvd_of_mod_eq_zero hgroup
    have hk : 32 ∣ k := hgroup.trans (Nat.dvd_of_mod_eq_zero hk)
    have hline : 32 ∣ lineRoundUp (ptr + maxM * k * 2) := (by decide : 32 ∣ 64).trans hfirst.2.2
    apply Dvd.dvd.add _ (Nat.dvd_mul_right ..)
    exact (hline.add (hk.mul_left mi)).add (hgroup.mul_left g)

end Layout

/-! ## What the workers leave -/

section Fill

variable {h : Headers Bf16 F32} {fp : Fp32 F32} {src : ℕ → Bf16} {k groupSize : ℕ}

theorem overwrite_of_mem {β : Type*} (mem : ℕ → β) (off len : ℕ) (val : ℕ → β) {i : ℕ} (hi : i < len) :
    overwrite mem off len val (off + i) = val i := by
  rw [overwrite, if_pos ⟨by omega, by omega⟩, Nat.add_sub_cancel_left]

/-- A cell holds `v` after an overwrite if it did before and the overwrite agrees. -/
theorem overwrite_keeps {β : Type*} {mem : ℕ → β} {off len p : ℕ} {val : ℕ → β} {v : β} (hmem : mem p = v)
    (hval : ∀ i < len, off + i = p → val i = v) : overwrite mem off len val p = v := by
  unfold overwrite
  split
  · next hp => exact hval (p - off) (by omega) (by omega)
  · exact hmem

/-- Cells of rows of one width determine row and column. -/
theorem cell_inj {width a b r s : ℕ} (hr : r < width) (hs : s < width) (heq : a * width + r = b * width + s) :
    a = b ∧ r = s := by
  have hrow : a = b := by
    have hdiv := congrArg (· / width) heq
    rwa [Nat.mul_comm a, Nat.mul_comm b, Nat.mul_add_div (by omega), Nat.mul_add_div (by omega),
      Nat.div_eq_of_lt hr, Nat.div_eq_of_lt hs] at hdiv
  subst hrow
  exact ⟨rfl, by omega⟩

/-- Quantisation looks at the group alone. -/
theorem quantizeActivationGroupU8_congr (fp : Fp32 F32) {x y : ℕ → F32} (hxy : ∀ i < groupSize, x i = y i) :
    (quantizeActivationGroupU8 fp x groupSize).1 = (quantizeActivationGroupU8 fp y groupSize).1 ∧
      ∀ i < groupSize,
        (quantizeActivationGroupU8 fp x groupSize).2 i = (quantizeActivationGroupU8 fp y groupSize).2 i := by
  have hmax : (List.range groupSize).foldl (fun m i => fp.max m (fp.fabs (x i))) fp.zero =
      (List.range groupSize).foldl (fun m i => fp.max m (fp.fabs (y i))) fp.zero := by
    apply List.foldl_ext
    intro m i hi
    rw [hxy i (List.mem_range.1 hi)]
  unfold quantizeActivationGroupU8
  rw [hmax]
  dsimp only
  split
  · exact ⟨rfl, fun _ _ => rfl⟩
  · refine ⟨rfl, fun i hi => ?_⟩
    simp only [hxy i hi]

/-- The scale and the bytes of a group of the activations. -/
def srcGroup (h : Headers Bf16 F32) (fp : Fp32 F32) (src : ℕ → Bf16) (k groupSize mi g : ℕ) : F32 × (ℕ → UInt8) :=
  quantizeActivationGroupU8 fp (fun i => h.bf16ToFp32 (src (mi * k + g * groupSize + i))) groupSize

/-- What an instruction has done. -/
def MatStep.Done (h : Headers Bf16 F32) (fp : Fp32 F32) (src : ℕ → Bf16) (k groupSize : ℕ) (a : BufferA Bf16 F32) :
    MatStep → Prop
  | .copy mi => ∀ i < k, a.data (mi * k + i) = src (mi * k + i)
  | .quantize mi g => a.quantScales (mi * (k / groupSize) + g) = (srcGroup h fp src k groupSize mi g).1 ∧
      ∀ i < groupSize, a.quantized (mi * k + (g * groupSize + i)) = (srcGroup h fp src k groupSize mi g).2 i

theorem group_lt (hk : k % groupSize = 0) {g i : ℕ} (hg : g < k / groupSize) (hi : i < groupSize) :
    g * groupSize + i < k := by
  have hle : (g + 1) * groupSize ≤ k / groupSize * groupSize := Nat.mul_le_mul_right _ hg
  rw [Nat.div_mul_cancel (Nat.dvd_of_mod_eq_zero hk), Nat.succ_mul] at hle
  omega

/-- A copied row is quantised as it is in the source. -/
theorem quantizeGroup_of_copied (hk : k % groupSize = 0) {a : BufferA Bf16 F32} (hak : a.k = k)
    (hags : a.groupSize = groupSize) {mi g : ℕ} (hg : g < k / groupSize)
    (hcopied : (MatStep.copy mi).Done h fp src k groupSize a) :
    (a.quantizeGroup h fp mi g).1 = (srcGroup h fp src k groupSize mi g).1 ∧
      ∀ i < groupSize, (a.quantizeGroup h fp mi g).2 i = (srcGroup h fp src k groupSize mi g).2 i := by
  unfold BufferA.quantizeGroup srcGroup
  rw [hak, hags]
  apply quantizeActivationGroupU8_congr
  intro i hi
  rw [Nat.add_assoc, hcopied _ (group_lt hk hg hi)]

/-- Only groups of the row are quantised. -/
theorem lt_of_mem_fromMatProgram {numGroups m nth ith mi g : ℕ} {prequant : Bool}
    (hi : .quantize mi g ∈ fromMatProgram h numGroups m nth prequant ith) : g < numGroups := by
  unfold fromMatProgram at hi
  rcases List.mem_append.1 hi with hi | hi
  · obtain ⟨mi', -, heq⟩ := List.mem_map.1 hi
    cases heq
  · split at hi
    · obtain ⟨mi', -, hi⟩ := List.mem_flatMap.1 hi
      obtain ⟨g', hg, heq⟩ := List.mem_map.1 hi
      cases heq
      exact List.mem_range.1 hg
    · cases hi

section Exec

variable {a : BufferA Bf16 F32} {mi g : ℕ}

@[simp] theorem exec_copy_data : (MatStep.exec h fp src a (.copy mi)).data =
    overwrite a.data (mi * a.k) a.k fun i => src (mi * a.k + i) := rfl

@[simp] theorem exec_copy_quantScales : (MatStep.exec h fp src a (.copy mi)).quantScales = a.quantScales := rfl

@[simp] theorem exec_copy_quantized : (MatStep.exec h fp src a (.copy mi)).quantized = a.quantized := rfl

@[simp] theorem exec_quantize_data : (MatStep.exec h fp src a (.quantize mi g)).data = a.data := rfl

@[simp] theorem exec_quantize_quantScales : (MatStep.exec h fp src a (.quantize mi g)).quantScales =
    Function.update a.quantScales (mi * a.numGroups + g) (a.quantizeGroup h fp mi g).1 := rfl

@[simp] theorem exec_quantize_quantized : (MatStep.exec h fp src a (.quantize mi g)).quantized =
    overwrite a.quantized (mi * a.k + g * a.groupSize) a.groupSize (a.quantizeGroup h fp mi g).2 := rfl

end Exec

/-- In its program, the quantisation of a group comes after the copy of its row. -/
theorem copied_before {numGroups m nth ith : ℕ} {prequant : Bool} (hb : h.Bounded) (hith : ith < nth) {n mi g : ℕ}
    (hn : n < (fromMatProgram h numGroups m nth prequant ith).length)
    (hget : (fromMatProgram h numGroups m nth prequant ith)[n] = .quantize mi g) :
    .copy mi ∈ (fromMatProgram h numGroups m nth prequant ith).take n := by
  let copied := if ith = 0 ∧ nth = 1 then List.range m
    else List.range' (h.splitRange m ith nth).1 ((h.splitRange m ith nth).2 - (h.splitRange m ith nth).1)
  let quantized := if prequant then
    (List.range' (h.splitRange m ith nth).1 ((h.splitRange m ith nth).2 - (h.splitRange m ith nth).1)).flatMap fun mi =>
      (List.range numGroups).map (MatStep.quantize mi) else []
  have hprogram : fromMatProgram h numGroups m nth prequant ith = copied.map .copy ++ quantized := rfl
  -- a quantisation is none of the copies, so all of these come before it
  have hlate : (copied.map MatStep.copy).length ≤ n := by
    by_contra hearly
    simp only [hprogram, List.getElem_append_left (not_le.1 hearly), List.getElem_map] at hget
    cases hget
  have hmem : MatStep.quantize mi g ∈ quantized := by
    simp only [hprogram, List.getElem_append_right hlate] at hget
    exact hget ▸ List.getElem_mem _
  have hrow : mi ∈ List.range' (h.splitRange m ith nth).1
      ((h.splitRange m ith nth).2 - (h.splitRange m ith nth).1) := by
    simp only [quantized] at hmem
    split at hmem
    · obtain ⟨mi', hmi', hmem⟩ := List.mem_flatMap.1 hmem
      obtain ⟨g', -, heq⟩ := List.mem_map.1 hmem
      cases heq
      exact hmi'
    · cases hmem
  have hcopied : mi ∈ copied := by
    simp only [copied]
    split
    · have hwithin := hb m nth ith hith
      rw [List.mem_range'_1] at hrow
      exact List.mem_range.2 (by omega)
    · exact hrow
  rw [hprogram, List.take_append, List.take_of_length_le hlate]
  exact List.mem_append_left _ (List.mem_map_of_mem hcopied)

/-- Every instruction does its own, and undoes nothing. -/
theorem fromMat_sound (hb : h.Bounded) (hk : k % groupSize = 0) (m nth : ℕ) (prequant : Bool) :
    Sound (fun ith : Fin nth => fromMatProgram h (k / groupSize) m nth prequant ith) (MatStep.exec h fp src)
      (fun a => a.k = k ∧ a.groupSize = groupSize) (fun i a => i.Done h fp src k groupSize a) where
  keepsInv a i hi := by cases i <;> exact hi
  establishes ith n hn a ha hbefore := by
    cases hget : (fromMatProgram h (k / groupSize) m nth prequant ith)[n] with
    | copy mi =>
      intro i hi
      rw [exec_copy_data, ha.1, overwrite_of_mem _ _ _ _ hi]
    | quantize mi g =>
      have hg : g < k / groupSize := lt_of_mem_fromMatProgram (hget ▸ List.getElem_mem hn)
      have hcopied := hbefore _ (copied_before hb ith.isLt hn hget)
      obtain ⟨hscale, hbytes⟩ := quantizeGroup_of_copied hk ha.1 ha.2 hg hcopied
      refine ⟨?_, fun i hi => ?_⟩
      · rw [exec_quantize_quantScales, BufferA.numGroups, ha.1, ha.2, Function.update_self, hscale]
      · rw [exec_quantize_quantized, ha.1, ha.2, ← Nat.add_assoc, overwrite_of_mem _ _ _ _ hi, hbytes i hi]
  keeps ith n hn a ha hbefore ith' step hstep hdone := by
    cases hget : (fromMatProgram h (k / groupSize) m nth prequant ith)[n] with
    | copy mi =>
      cases step with
      | copy mi' =>
        intro i hi
        rw [exec_copy_data, ha.1]
        exact overwrite_keeps (hdone i hi) fun j _ hj => by rw [hj]
      | quantize mi' g' => exact hdone
    | quantize mi g =>
      cases step with
      | copy mi' => exact hdone
      | quantize mi' g' =>
        have hg : g < k / groupSize := lt_of_mem_fromMatProgram (hget ▸ List.getElem_mem hn)
        have hg' : g' < k / groupSize := lt_of_mem_fromMatProgram hstep
        have hcopied := hbefore _ (copied_before hb ith.isLt hn hget)
        obtain ⟨hscale, hbytes⟩ := quantizeGroup_of_copied hk ha.1 ha.2 hg hcopied
        obtain ⟨hscale', hbytes'⟩ := hdone
        refine ⟨?_, fun i hi => ?_⟩
        · rw [exec_quantize_quantScales, BufferA.numGroups, ha.1, ha.2, Function.update_apply]
          split
          · next heq =>
            obtain ⟨rfl, rfl⟩ := cell_inj hg' hg heq
            exact hscale
          · exact hscale'
        · rw [exec_quantize_quantized, ha.1, ha.2]
          refine overwrite_keeps (hbytes' i hi) fun j hj heq => ?_
          rw [Nat.add_assoc] at heq
          obtain ⟨rfl, hcol⟩ := cell_inj (group_lt hk hg hj) (group_lt hk hg' hi) heq
          obtain ⟨rfl, rfl⟩ := cell_inj hj hi hcol
          exact hbytes j hj

end Fill

/-! ## The two kernels -/

section Kernels

variable {h : Headers Bf16 F32} {fp : Fp32 F32} {b : BufferB F32}

/-- The dot product of a group looks at the bytes of the group alone. -/
theorem groupDot_congr {aU8 aU8' : ℕ → UInt8} (wCol : ℕ → UInt8) {groupSize : ℕ} (weightSum : BitVec 16)
    (hgroup : groupSize % 32 = 0) (heq : ∀ i < groupSize, aU8 i = aU8' i) :
    groupDot aU8 wCol groupSize weightSum = groupDot aU8' wCol groupSize weightSum := by
  have hacc : groupAcc aU8 wCol ((groupSize + 31) / 32) = groupAcc aU8' wCol ((groupSize + 31) / 32) := by
    apply List.foldl_ext
    intro acc c hc
    have hc := List.mem_range.1 hc
    have hload : (Lanes.load 32 fun i => aU8 (32 * c + i)) = Lanes.load 32 fun i => aU8' (32 * c + i) := by
      funext i
      exact congrArg UInt8.toBitVec (heq (32 * c + i) (by omega))
    simp only [hload]
  unfold groupDot
  rw [hacc]

/-- The kernel looks at the scales and the bytes of the groups of its rows alone. -/
theorem gemmOn_congr {group group' : ℕ → ℕ → F32 × (ℕ → UInt8)} {m : ℕ}
    (heq : ∀ mi < m, ∀ g < b.numGroups, (group mi g).1 = (group' mi g).1 ∧
      ∀ i < b.groupSize, (group mi g).2 i = (group' mi g).2 i) (ith nth : ℕ) (c : ℕ × ℕ → F32) :
    gemmOn h fp group b m ith nth c = gemmOn h fp group' b m ith nth c := by
  obtain ⟨-, hgroup, -, -⟩ := bufferB_ok b.accepted
  have hvisits : ∀ mi ∈ List.range m, ∀ g ∈ List.range b.numGroups, fp.isZero (group mi g).1 = fp.isZero (group' mi g).1 :=
    fun mi hmi g hg => by rw [(heq mi (List.mem_range.1 hmi) g (List.mem_range.1 hg)).1]
  unfold gemmOn
  dsimp only
  have hlists : ((List.range m).flatMap fun mi => (List.range b.numGroups).flatMap fun g =>
      if fp.isZero (group mi g).1 then [] else (List.range' (h.splitRange b.n ith nth).1
        ((h.splitRange b.n ith nth).2 - (h.splitRange b.n ith nth).1)).map fun ni => (mi, g, ni)) =
      (List.range m).flatMap fun mi => (List.range b.numGroups).flatMap fun g =>
      if fp.isZero (group' mi g).1 then [] else (List.range' (h.splitRange b.n ith nth).1
        ((h.splitRange b.n ith nth).2 - (h.splitRange b.n ith nth).1)).map fun ni => (mi, g, ni) := by
    refine List.flatMap_congr fun mi hmi => List.flatMap_congr fun g hg => ?_
    rw [hvisits mi hmi g hg]
  rw [hlists]
  apply List.foldl_ext
  rintro c ⟨mi, g, ni⟩ hv
  simp only [List.mem_flatMap, List.mem_range] at hv
  obtain ⟨mi', hmi, g', hg, hv⟩ := hv
  obtain ⟨rfl, rfl⟩ : mi' = mi ∧ g' = g := by
    split at hv
    · cases hv
    · obtain ⟨ni', -, hni⟩ := List.mem_map.1 hv
      exact ⟨congrArg Prod.fst hni, congrArg (fun v => v.2.1) hni⟩
  obtain ⟨hscale, hbytes⟩ := heq mi' hmi g' hg
  dsimp only
  rw [hscale, groupDot_congr _ _ hgroup hbytes]

end Kernels

section Run

variable {h : Headers Bf16 F32} {fp : Fp32 F32} {b : BufferB F32}

/-- Some worker copies a row, and quantises its groups if it is to. -/
theorem exists_row (hh : h.Lawful) {m nth : ℕ} (hnth : 0 < nth) (numGroups : ℕ) (prequant : Bool) {mi : ℕ} (hmi : mi < m) :
    ∃ ith : Fin nth, .copy mi ∈ fromMatProgram h numGroups m nth prequant ith ∧
      (prequant = true → ∀ g < numGroups, .quantize mi g ∈ fromMatProgram h numGroups m nth prequant ith) := by
  obtain ⟨ith, hith, hlo, hhi⟩ := hh.covers m nth mi hnth hmi
  have hrow : mi ∈ List.range' (h.splitRange m ith nth).1
      ((h.splitRange m ith nth).2 - (h.splitRange m ith nth).1) := List.mem_range'_1.2 ⟨hlo, by omega⟩
  refine ⟨⟨ith, hith⟩, List.mem_append_left _ (List.mem_map_of_mem ?_), fun hpre g hg => List.mem_append_right _ ?_⟩
  · split
    · exact List.mem_range.2 hmi
    · exact hrow
  · rw [if_pos hpre]
    exact List.mem_flatMap.2 ⟨mi, hrow, List.mem_map_of_mem (List.mem_range.2 hg)⟩

/-- **Quantised ahead or not.** After `from_mat` by any number of workers in any order, the kernel computes what it
computes from the activations themselves, with the option and without it. -/
theorem gemmPrequant_eq (hh : h.Lawful) (hb : h.Bounded) (prequant : Bool) (a : BufferA Bf16 F32) (hk : a.k = b.k)
    (hgroup : a.groupSize = b.groupSize) (src : ℕ → Bf16) (m : ℕ) {nth : ℕ} (hnth : 0 < nth) (turns : List (Fin nth))
    (hdone : FromMatDone h fp prequant src m a turns) (ith' nth' : ℕ) (c : ℕ × ℕ → F32) :
    gemmPrequant h fp prequant (fromMat h fp prequant src m a turns).state b m ith' nth' c =
      gemmRawint4PackedAvx512 h fp (fun mi i => src (mi * b.k + i)) b m ith' nth' c := by
  obtain ⟨-, -, -, hmod⟩ := bufferB_ok b.accepted
  have hnum : a.numGroups = b.k / b.groupSize := by rw [BufferA.numGroups, hk, hgroup]
  have hsound : Sound (fun ith : Fin nth => fromMatProgram h a.numGroups m nth prequant ith) (MatStep.exec h fp src)
      (fun a => a.k = b.k ∧ a.groupSize = b.groupSize) fun i a => i.Done h fp src b.k b.groupSize a :=
    hnum ▸ fromMat_sound hb hmod m nth prequant
  have hshop := posts_of_done hsound ⟨hk, hgroup⟩ turns
  have hk' : (fromMat h fp prequant src m a turns).state.k = b.k := hshop.1.1
  have hposts : ∀ ith : Fin nth, ∀ i ∈ fromMatProgram h a.numGroups m nth prequant ith,
      i.Done h fp src b.k b.groupSize (fromMat h fp prequant src m a turns).state := fun ith => hshop.2 ith (hdone ith)
  have hinline : gemmRawint4PackedAvx512 h fp (fun mi i => src (mi * b.k + i)) b m ith' nth' c =
    gemmOn h fp (activationGroup h fp (fun mi i => src (mi * b.k + i)) b) b m ith' nth' c := rfl
  rw [hinline]
  apply gemmOn_congr
  intro mi hmi g hg
  obtain ⟨ith, hcopy, hquantize⟩ := exists_row hh hnth a.numGroups prequant hmi
  have hcopied := hposts ith _ hcopy
  have hsrc : activationGroup h fp (fun mi i => src (mi * b.k + i)) b mi g = srcGroup h fp src b.k b.groupSize mi g := by
    simp only [activationGroup, srcGroup, Nat.add_assoc]
  rw [hsrc]
  unfold BufferA.kernelGroup
  rw [hk']
  split
  · next hpre =>
    obtain ⟨hscale, hbytes⟩ := hposts ith _ (hquantize hpre g (hnum ▸ hg))
    refine ⟨hscale, fun i hi => ?_⟩
    rw [← hbytes i hi, ← Nat.add_assoc]
  · apply quantizeActivationGroupU8_congr
    intro i hi
    rw [Nat.add_assoc, hcopied _ (group_lt hmod hg hi)]

/-- Two workers with a row each, the second of which copies and quantises its row while the first waits. -/
theorem gemmPrequant_eq_twoRows :
    let a : BufferA ℚ ℚ := ⟨2, 32, 32, fun _ => 5, fun _ => 0, fun _ => 0⟩
    gemmPrequant ratHeaders ratOps true (fromMat ratHeaders ratOps true (fun _ => 1) 2 a [(0 : Fin 2), 1, 1, 0]).state
        oneRow 2 0 1 (fun _ => 0) =
      gemmRawint4PackedAvx512 ratHeaders ratOps (fun _ _ => 1) oneRow 2 0 1 fun _ => 0 := by
  intro a
  have hlawful : ratHeaders.Lawful := ⟨fun _ => rfl, bitHeaders_lawful.covers⟩
  have hbounded : ratHeaders.Bounded := fun n _ _ _ => Nat.min_le_right _ n
  have hdone : FromMatDone ratHeaders ratOps true (fun _ => 1) 2 a [(0 : Fin 2), 1, 1, 0] := by
    unfold FromMatDone
    decide +kernel
  exact gemmPrequant_eq hlawful hbounded true a rfl rfl (fun _ => 1) 2 Nat.two_pos [0, 1, 1, 0] hdone 0 1 fun _ => 0

end Run

end ExpertServe.PackedInt4
