import ExpertServe.Kernel.PackedDot
import ExpertServe.Lib.Bytes

/-!
# Experts in host memory

Each partition has three `BufferB`s for every expert, one to an allocation of whole pages: the packed rows, then the
scales as fp32, then the weight sums as int16. The jobs of `load_weights`, byte by byte.

* `bufferBytes`: the bytes of a `BufferB` that `from_raw_mat` fills, `rawBytes_eq` and `exists_rawBytes`;
* `Extents`: where the buffers are;
* `Boots`: what `load_weights` may leave in memory;
* `booted_byte`: the buffers of an expert that is staged and loaded hold its slice.
-/

namespace ExpertServe.PackedInt4

open Lib

variable {Bf16 F32 : Type*}

/-! ## The bytes of a buffer -/

/-- Where the scales of a `BufferB` start, in bytes. -/
def scalesOff (n k : ℕ) : ℕ := k / 2 * n

def sumsOff (n k groupSize : ℕ) : ℕ := scalesOff n k + k / groupSize * n * 4

/-- `BufferB::required_size`. -/
def requiredSize (n k groupSize : ℕ) : ℕ :=
  let numGroups := k / groupSize
  k / 2 * n + numGroups * n * 4 + numGroups * n * 2

/-- Byte `j` of an int16 in memory. -/
def int16Byte (v : BitVec 16) (j : ℕ) : UInt8 := .ofBitVec ((v >>> (8 * j)).setWidth 8)

section Raw

variable (h : Headers Bf16 F32) (fp32Byte : F32 → ℕ → UInt8)

/-- `BufferB::from_raw_mat` with all that it writes: worker `ith` of `nth`, of an `[n, k]` matrix. -/
def rawBytes {κ : Type*} (dst : κ) (n k groupSize : ℕ) (srcPacked : ℕ → UInt8) (srcScales : ℕ → Bf16) (ith nth : ℕ) :
    List (Copy κ UInt8) :=
  let work := fromRawMat h dst n k groupSize srcPacked srcScales ith nth
  work.weights ++ work.scales.map (Copy.bytes (scalesOff n k) 4 fp32Byte) ++
    (fromRawMatSums h dst n k groupSize srcPacked ith nth).map (Copy.bytes (sumsOff n k groupSize) 2 int16Byte)

/-- Weight sum `s` of an `[n, k]` matrix. -/
def matSum (k groupSize : ℕ) (srcPacked : ℕ → UInt8) (s : ℕ) : BitVec 16 :=
  let row := s / (k / groupSize)
  let g := s % (k / groupSize)
  BitVec.ofInt 16 (groupSum (fun j => srcPacked (row * (k / 2) + j)) (g * groupSize) groupSize)

/-- The bytes of the `BufferB` of an `[n, k]` matrix. -/
def bufferBytes (n k groupSize : ℕ) (srcPacked : ℕ → UInt8) (srcScales : ℕ → Bf16) (a : ℕ) : UInt8 :=
  if a < scalesOff n k then srcPacked a
  else if a < sumsOff n k groupSize then
    fp32Byte (h.bf16ToFp32 (srcScales ((a - scalesOff n k) / 4))) ((a - scalesOff n k) % 4)
  else int16Byte (matSum k groupSize srcPacked ((a - sumsOff n k groupSize) / 2)) ((a - sumsOff n k groupSize) % 2)

end Raw

/-- No range of rows goes past the last row. -/
def Headers.Bounded (h : Headers Bf16 F32) : Prop :=
  ∀ n nth ith, ith < nth → (h.splitRange n ith nth).2 ≤ n

section RawLemmas

variable {h : Headers Bf16 F32} {fp32Byte : F32 → ℕ → UInt8} {κ : Type*} {dst : κ} {n k groupSize : ℕ}
  {srcPacked : ℕ → UInt8} {srcScales : ℕ → Bf16} {ith nth : ℕ}

theorem fromRawMat_weights : (fromRawMat h dst n k groupSize srcPacked srcScales ith nth).weights =
    rawCopies dst (k / 2) srcPacked (h.splitRange n ith nth) := rfl

theorem fromRawMat_scales : (fromRawMat h dst n k groupSize srcPacked srcScales ith nth).scales =
    rawCopies dst (k / groupSize) (fun s => h.bf16ToFp32 (srcScales s)) (h.splitRange n ith nth) := rfl

/-- Copies row by row stay within the rows. -/
theorem rawCopies_within {α : Type*} {cols : ℕ} {src : ℕ → α} {rows : ℕ × ℕ} (hrows : rows.2 ≤ n) {c : Copy κ α}
    (hc : c ∈ rawCopies dst cols src rows) : c.dst = dst ∧ c.off + c.len ≤ cols * n := by
  obtain ⟨ni, hni, rfl⟩ := List.mem_map.mp hc
  have hni := List.mem_range'_1.mp hni
  refine ⟨rfl, ?_⟩
  show ni * cols + cols ≤ cols * n
  rw [← Nat.succ_mul, Nat.mul_comm cols]
  exact Nat.mul_le_mul_right cols (by omega)

/-- The weight sums are copies row by row, of the sums of the matrix. -/
theorem val_of_mem_fromRawMatSums {c : Copy κ (BitVec 16)}
    (hc : c ∈ fromRawMatSums h dst n k groupSize srcPacked ith nth) {key : κ} {s : ℕ} (hhit : c.Hits key s) :
    c.val (s - c.off) = matSum k groupSize srcPacked s := by
  obtain ⟨ni, -, rfl⟩ := List.mem_map.mp hc
  obtain ⟨-, hlo, hhi⟩ := hhit
  simp only at hlo hhi
  have hg : s - ni * (k / groupSize) < k / groupSize := by omega
  obtain ⟨hdiv, hmod⟩ := piece_div_mod (t := ni) hg
  rw [Nat.add_sub_cancel' hlo] at hdiv hmod
  unfold matSum
  simp only [hdiv, hmod]

theorem fromRawMatSums_spans {c : Copy κ (BitVec 16)} (hc : c ∈ fromRawMatSums h dst n k groupSize srcPacked ith nth) :
    ∃ c' ∈ rawCopies dst (k / groupSize) (fun _ => ()) (h.splitRange n ith nth),
      c.dst = c'.dst ∧ c.off = c'.off ∧ c.len = c'.len := by
  obtain ⟨ni, hni, rfl⟩ := List.mem_map.mp hc
  exact ⟨_, List.mem_map_of_mem hni, rfl, rfl, rfl⟩

/-- A worker writes its own buffer only, and none of the bytes past the end. -/
theorem rawBytes_within (hrows : (h.splitRange n ith nth).2 ≤ n) {c : Copy κ UInt8}
    (hc : c ∈ rawBytes h fp32Byte dst n k groupSize srcPacked srcScales ith nth) :
    c.dst = dst ∧ c.off + c.len ≤ requiredSize n k groupSize := by
  unfold rawBytes requiredSize at *
  dsimp only at hc ⊢
  rw [fromRawMat_weights, fromRawMat_scales] at hc
  rcases List.mem_append.mp hc with hc | hc
  · rcases List.mem_append.mp hc with hc | hc
    · obtain ⟨hdst, hlen⟩ := rawCopies_within hrows hc
      exact ⟨hdst, by omega⟩
    · obtain ⟨c, hraw, rfl⟩ := List.mem_map.mp hc
      obtain ⟨hdst, hlen⟩ := rawCopies_within hrows hraw
      refine ⟨hdst, ?_⟩
      show scalesOff n k + 4 * c.off + 4 * c.len ≤ _
      unfold scalesOff
      omega
  · obtain ⟨c, hraw, rfl⟩ := List.mem_map.mp hc
    obtain ⟨c', hc', hdst, hoff, hlen⟩ := fromRawMatSums_spans hraw
    obtain ⟨hdst', hlen'⟩ := rawCopies_within hrows hc'
    refine ⟨hdst.trans hdst', ?_⟩
    show sumsOff n k groupSize + 2 * c.off + 2 * c.len ≤ _
    unfold sumsOff scalesOff
    omega

/-- **What a worker writes** are bytes of the buffer. -/
theorem rawBytes_eq (hrows : (h.splitRange n ith nth).2 ≤ n) {c : Copy κ UInt8}
    (hc : c ∈ rawBytes h fp32Byte dst n k groupSize srcPacked srcScales ith nth) {key : κ} {a : ℕ}
    (hhit : c.Hits key a) : c.val (a - c.off) = bufferBytes h fp32Byte n k groupSize srcPacked srcScales a := by
  unfold rawBytes at hc
  dsimp only at hc
  rw [fromRawMat_weights, fromRawMat_scales] at hc
  rcases List.mem_append.mp hc with hc | hc
  · rcases List.mem_append.mp hc with hc | hc
    · obtain ⟨-, hlen⟩ := rawCopies_within hrows hc
      have ha : a < scalesOff n k := Nat.lt_of_lt_of_le hhit.2.2 hlen
      rw [(val_of_mem_rawCopies hc hhit).2, bufferBytes, if_pos ha]
    · obtain ⟨c, hraw, rfl⟩ := List.mem_map.mp hc
      obtain ⟨hlo, hcell⟩ := (hits_bytes (by decide)).mp hhit
      obtain ⟨-, hlen⟩ := rawCopies_within hrows hraw
      have ha : a < sumsOff n k groupSize := by
        have hlt := Nat.lt_of_lt_of_le hcell.2.2 hlen
        unfold sumsOff
        omega
      rw [val_bytes hhit, (val_of_mem_rawCopies hraw hcell).2, bufferBytes, if_neg (by omega), if_pos ha]
  · obtain ⟨c, hraw, rfl⟩ := List.mem_map.mp hc
    obtain ⟨hlo, hcell⟩ := (hits_bytes (by decide)).mp hhit
    have hoff : scalesOff n k ≤ sumsOff n k groupSize := Nat.le_add_right _ _
    rw [val_bytes hhit, val_of_mem_fromRawMatSums hraw hcell, bufferBytes, if_neg (by omega), if_neg (by omega)]

variable (fp32Byte) in
/-- Some worker writes each byte. -/
theorem exists_rawBytes (hh : h.Lawful) (hnth : 0 < nth) (dst : κ) (srcPacked : ℕ → UInt8) (srcScales : ℕ → Bf16)
    {a : ℕ} (ha : a < requiredSize n k groupSize) :
    ∃ ith < nth, ∃ c ∈ rawBytes h fp32Byte dst n k groupSize srcPacked srcScales ith nth, c.Hits dst a := by
  -- the worker of the row of cell `s`, in a table of `cols` cells to a row
  have hworker : ∀ {cols s : ℕ}, s < cols * n → 0 < cols ∧ ∃ ith < nth,
      (h.splitRange n ith nth).1 ≤ s / cols ∧ s / cols < (h.splitRange n ith nth).2 := by
    intro cols s hs
    have hcols : 0 < cols := Nat.pos_of_ne_zero fun h0 => by simp [h0] at hs
    exact ⟨hcols, hh.covers n nth _ hnth ((Nat.div_lt_iff_lt_mul hcols).mpr (by rwa [Nat.mul_comm]))⟩
  unfold requiredSize at ha
  dsimp only at ha
  unfold rawBytes
  dsimp only
  simp only [fromRawMat_weights, fromRawMat_scales]
  by_cases hweights : a < scalesOff n k
  · obtain ⟨hcols, ith, hith, hrow⟩ := hworker hweights
    obtain ⟨c, hc, hhit⟩ := exists_hit_rawCopies dst hcols srcPacked hrow
    exact ⟨ith, hith, c, List.mem_append_left _ (List.mem_append_left _ hc), hhit⟩
  · by_cases hscales : a < sumsOff n k groupSize
    · have hs : (a - scalesOff n k) / 4 < k / groupSize * n := by
        unfold sumsOff at hscales
        omega
      obtain ⟨hcols, ith, hith, hrow⟩ := hworker hs
      obtain ⟨c, hc, hhit⟩ := exists_hit_rawCopies dst hcols (fun s => h.bf16ToFp32 (srcScales s)) hrow
      exact ⟨ith, hith, _, List.mem_append_left _ (List.mem_append_right _ (List.mem_map_of_mem hc)),
        (hits_bytes (by decide)).mpr ⟨by omega, hhit⟩⟩
    · have hs : (a - sumsOff n k groupSize) / 2 < k / groupSize * n := by
        unfold sumsOff scalesOff at *
        omega
      obtain ⟨hcols, ith, hith, hrow⟩ := hworker hs
      obtain ⟨c, hc, hhit⟩ := exists_hit_rawCopies dst hcols (fun _ => ()) hrow
      obtain ⟨ni, hni, rfl⟩ := List.mem_map.mp hc
      exact ⟨ith, hith, _, List.mem_append_right _ (List.mem_map_of_mem (List.mem_map_of_mem hni)),
        (hits_bytes (by decide)).mpr ⟨by omega, hhit⟩⟩

/-- The bytes of a buffer depend only on the cells of its matrix. -/
theorem bufferBytes_congr {srcPacked' : ℕ → UInt8} {srcScales' : ℕ → Bf16}
    (hok : GeneralMOEConfig.bufferB k groupSize = .ok ())
    (hweights : ∀ j < n * (k / 2), srcPacked j = srcPacked' j)
    (hscales : ∀ s < n * (k / groupSize), srcScales s = srcScales' s) {a : ℕ} (ha : a < requiredSize n k groupSize) :
    bufferBytes h fp32Byte n k groupSize srcPacked srcScales a =
      bufferBytes h fp32Byte n k groupSize srcPacked' srcScales' a := by
  obtain ⟨hpos, hgroup, -, hk⟩ := bufferB_ok hok
  unfold requiredSize at ha
  dsimp only at ha
  unfold bufferBytes
  split
  · next hlt => exact hweights a (by rwa [Nat.mul_comm])
  · split
    · next hlt =>
      rw [hscales]
      unfold sumsOff at hlt
      rw [Nat.mul_comm n]
      omega
    · next hge _ =>
      unfold sumsOff scalesOff at *
      have hs : (a - (k / 2 * n + k / groupSize * n * 4)) / 2 < k / groupSize * n := by omega
      generalize (a - (k / 2 * n + k / groupSize * n * 4)) / 2 = s at hs
      have hgroups : 0 < k / groupSize := Nat.pos_of_ne_zero fun h0 => by simp [h0] at hs
      have hrow : s / (k / groupSize) < n := (Nat.div_lt_iff_lt_mul hgroups).mpr (by rwa [Nat.mul_comm])
      have hg := Nat.mod_lt s hgroups
      have hend : s % (k / groupSize) * groupSize + groupSize ≤ k := by
        rw [← Nat.succ_mul]
        exact (Nat.mul_le_mul_right _ hg).trans (Nat.div_mul_le_self _ _)
      have hbase : s % (k / groupSize) * groupSize % 2 = 0 := by
        rw [Nat.mul_mod, show groupSize % 2 = 0 by omega]
        simp
      have hfit : s / (k / groupSize) * (k / 2) + k / 2 ≤ n * (k / 2) := by
        rw [← Nat.succ_mul]
        exact Nat.mul_le_mul_right _ hrow
      refine congrArg (int16Byte · _) ?_
      unfold matSum groupSum
      dsimp only
      refine congrArg (fun l => BitVec.ofInt 16 (List.sum l)) (List.map_congr_left fun i hi => ?_)
      have hi := List.mem_range.mp hi
      rw [hweights _ (by omega)]

end RawLemmas

/-! ## Sizes the constructors accept -/

/-- The partitions are constructed: their number divides the intermediate axis, and their checks pass. -/
structure Accepted (config : GeneralMOEConfig) (tpCount : ℕ) : Prop where
  whole : tpCount ∣ config.intermediateSize
  ok : (config.partition tpCount).construct = .ok ()

section Accepted

variable {config : GeneralMOEConfig} {tpCount : ℕ}

theorem bufferB_of_construct {tpc : GeneralMOEConfig} (hok : tpc.construct = .ok ()) (p : Proj) :
    GeneralMOEConfig.bufferB (p.rowWeights tpc) tpc.groupSize = .ok () := by
  unfold GeneralMOEConfig.construct at hok
  cases hinit : tpc.derivedInit with
  | error msg => rw [hinit] at hok; cases hok
  | ok _ =>
    rw [hinit] at hok
    cases hgate : GeneralMOEConfig.bufferB tpc.hiddenSize tpc.groupSize with
    | error msg => simp [hgate, bind, Except.bind] at hok
    | ok _ =>
      cases hdown : GeneralMOEConfig.bufferB tpc.intermediateSize tpc.groupSize with
      | error msg => simp [hgate, hdown, bind, Except.bind] at hok
      | ok _ =>
        cases p with
        | gate => exact hgate
        | up => exact hgate
        | down => exact hdown

theorem Accepted.bufferB (hacc : Accepted config tpCount) (p : Proj) :
    GeneralMOEConfig.bufferB (p.rowWeights (config.partition tpCount)) config.groupSize = .ok () :=
  bufferB_of_construct hacc.ok p

theorem Accepted.fits (hacc : Accepted config tpCount) {unit : ℕ} (hunit : unit ∣ config.groupSize) :
    Fits config tpCount unit where
  hidden := hunit.trans (Nat.dvd_of_mod_eq_zero (bufferB_ok (hacc.bufferB .gate)).2.2.2)
  slice := hunit.trans (Nat.dvd_of_mod_eq_zero (bufferB_ok (hacc.bufferB .down)).2.2.2)
  whole := hacc.whole

theorem Accepted.two_dvd (hacc : Accepted config tpCount) : 2 ∣ config.groupSize := by
  obtain ⟨-, hgroup, -, -⟩ := bufferB_ok (hacc.bufferB .gate)
  omega

end Accepted

/-! ## Extents -/

/-- A `BufferB`, by partition, expert and projection. -/
abbrev Buf := ℕ × ℕ × Proj

/-- Host memory, byte by byte. -/
abbrev Ram := Unit → ℕ → UInt8

def pageSize : ℕ := 4096

/-- `page_round_up`. -/
def pageRoundUp (n : ℕ) : ℕ := (n + pageSize - 1) / pageSize * pageSize

/-- The bytes of a `BufferB` of a partition. -/
def Proj.bufferSize (tpc : GeneralMOEConfig) (p : Proj) : ℕ :=
  requiredSize (p.rows tpc) (p.rowWeights tpc) tpc.groupSize

/-- The bytes that are allocated for it. -/
def Proj.extentBytes (tpc : GeneralMOEConfig) (p : Proj) : ℕ := pageRoundUp (p.bufferSize tpc)

/-- The buffers there are. -/
def bufs (config : GeneralMOEConfig) (tpCount : ℕ) : Set Buf := {k | k.1 < tpCount ∧ k.2.1 < config.expertNum}

/-- `expert_bb_extents_` of all partitions, as `aligned_alloc` gives them: at pages, and no two overlap. -/
structure Extents (config : GeneralMOEConfig) (tpCount : ℕ) where
  ptr : Buf → ℕ
  aligned : ∀ k ∈ bufs config tpCount, pageSize ∣ ptr k
  placed : Placed (bufs config tpCount) ptr fun k => k.2.2.extentBytes (config.partition tpCount)

theorem le_pageRoundUp (n : ℕ) : n ≤ pageRoundUp n := by
  unfold pageRoundUp pageSize
  omega

/-- Whole pages stay as they are. -/
theorem pageRoundUp_idem (n : ℕ) : pageRoundUp (pageRoundUp n) = pageRoundUp n := by
  unfold pageRoundUp pageSize
  omega

/-! ## Booting -/

section Boot

variable (h : Headers Bf16 F32) (fp32Byte : F32 → ℕ → UInt8)

/-- A task of `load_weights` of partition `i`, with all that it writes. -/
def loadTaskBytes (tpc : GeneralMOEConfig) (i : ℕ) (tmp : Tensors Bf16) (n k nth : ℕ) (p : Proj) (taskId : ℕ) :
    List (Copy Buf UInt8) :=
  let expertIdx := taskId / nth
  if tpc.shouldSkipExpert expertIdx then []
  else
    let logical := tpc.expertMap expertIdx
    let ith := taskId % nth
    let weightBytesPerExpert := n * k / 2
    let scaleElemsPerExpert := n * (k / tpc.groupSize)
    rawBytes h fp32Byte (i, expertIdx, p) n k tpc.groupSize (fun j => tmp.weight p (logical * weightBytesPerExpert + j))
      (fun j => tmp.scale p (logical * scaleElemsPerExpert + j)) ith nth

/-- `load_weights` of partition `i`, out of its flat buffers. -/
def loadWeightsBytes (tpc : GeneralMOEConfig) (i : ℕ) (tmp : Tensors Bf16) : List (Copy Buf UInt8) :=
  let gateUpNth := recommendedNth tpc.intermediateSize
  let downNth := recommendedNth tpc.hiddenSize
  let gateUp (p : Proj) := loadTaskBytes h fp32Byte tpc i tmp tpc.intermediateSize tpc.hiddenSize gateUpNth p
  let down := loadTaskBytes h fp32Byte tpc i tmp tpc.hiddenSize tpc.intermediateSize downNth .down
  (List.range (gateUpNth * tpc.expertNum)).flatMap (fun taskId => gateUp .gate taskId ++ gateUp .up taskId) ++
    (List.range (downNth * tpc.expertNum)).flatMap down

/-- `TP_MOE::load_weights` may take memory from `ram` to `ram'`: the flat buffers of each partition start with anything
and are staged, then the tasks of all partitions are done. -/
def Boots {config : GeneralMOEConfig} {tpCount : ℕ} (x : Extents config tpCount) (source : Source Bf16)
    (ram ram' : Ram) : Prop :=
  let tpc := config.partition tpCount
  ∃ tmp : ℕ → Tensors Bf16,
    (∀ i < tpCount, ∃ tmp₀ : Tensors Bf16,
      Runs (stage config tpc i source).weights tmp₀.weight (tmp i).weight ∧
      Runs (stage config tpc i source).scales tmp₀.scale (tmp i).scale) ∧
    Runs (((List.range tpCount).flatMap fun i => loadWeightsBytes h fp32Byte tpc i (tmp i)).map (Copy.place x.ptr))
      ram ram'

/-- The bytes of the buffer of partition `i` for an expert on disk. -/
def sliceBytes (config : GeneralMOEConfig) (tpCount i : ℕ) (disk : Tensors Bf16) (p : Proj) : ℕ → UInt8 :=
  let tpc := config.partition tpCount
  bufferBytes h fp32Byte (p.rows tpc) (p.rowWeights tpc) config.groupSize (cpuSlice config tpCount i 2 disk.weight p)
    (cpuSlice config tpCount i config.groupSize disk.scale p)

end Boot

section Booted

variable {h : Headers Bf16 F32} {fp32Byte : F32 → ℕ → UInt8} {config tpc : GeneralMOEConfig} {tpCount i : ℕ}
  {x : Extents config tpCount} {source : Source Bf16} {ram ram' : Ram}

/-- The task of worker `ith` of expert `e`. -/
theorem mem_loadWeightsBytes {tmp : Tensors Bf16} {c : Copy Buf UInt8} :
    c ∈ loadWeightsBytes h fp32Byte tpc i tmp ↔ ∃ p : Proj, ∃ t < recommendedNth (p.rows tpc) * tpc.expertNum,
      ¬ tpc.shouldSkipExpert (t / recommendedNth (p.rows tpc)) ∧
      c ∈ rawBytes h fp32Byte (i, t / recommendedNth (p.rows tpc), p) (p.rows tpc) (p.rowWeights tpc) tpc.groupSize
        (fun j => tmp.weight p
          (tpc.expertMap (t / recommendedNth (p.rows tpc)) * (p.rows tpc * p.rowWeights tpc / 2) + j))
        (fun j => tmp.scale p
          (tpc.expertMap (t / recommendedNth (p.rows tpc)) * (p.rows tpc * (p.rowWeights tpc / tpc.groupSize)) + j))
        (t % recommendedNth (p.rows tpc)) (recommendedNth (p.rows tpc)) := by
  have htask : ∀ p : Proj, ∀ t, c ∈ loadTaskBytes h fp32Byte tpc i tmp (p.rows tpc) (p.rowWeights tpc)
      (recommendedNth (p.rows tpc)) p t ↔ ¬ tpc.shouldSkipExpert (t / recommendedNth (p.rows tpc)) ∧
      c ∈ rawBytes h fp32Byte (i, t / recommendedNth (p.rows tpc), p) (p.rows tpc) (p.rowWeights tpc) tpc.groupSize
        (fun j => tmp.weight p
          (tpc.expertMap (t / recommendedNth (p.rows tpc)) * (p.rows tpc * p.rowWeights tpc / 2) + j))
        (fun j => tmp.scale p
          (tpc.expertMap (t / recommendedNth (p.rows tpc)) * (p.rows tpc * (p.rowWeights tpc / tpc.groupSize)) + j))
        (t % recommendedNth (p.rows tpc)) (recommendedNth (p.rows tpc)) := by
    intro p t
    unfold loadTaskBytes
    dsimp only
    split
    · next hskip => simp [hskip]
    · next hskip => simp [hskip]
  simp only [loadWeightsBytes, List.mem_append, List.mem_flatMap, List.mem_range]
  constructor
  · rintro (⟨t, ht, hc | hc⟩ | ⟨t, ht, hc⟩)
    · exact ⟨.gate, t, ht, (htask .gate t).mp hc⟩
    · exact ⟨.up, t, ht, (htask .up t).mp hc⟩
    · exact ⟨.down, t, ht, (htask .down t).mp hc⟩
  · rintro ⟨_ | _ | _, t, ht, hc⟩
    · exact .inl ⟨t, ht, .inl ((htask .gate t).mpr hc)⟩
    · exact .inl ⟨t, ht, .inr ((htask .up t).mpr hc)⟩
    · exact .inr ⟨t, ht, (htask .down t).mpr hc⟩

theorem loadWeightsBytes_within (hb : h.Bounded) (tmp : ℕ → Tensors Bf16) :
    Within (bufs config tpCount) (fun k => k.2.2.extentBytes (config.partition tpCount))
      ((List.range tpCount).flatMap fun i => loadWeightsBytes h fp32Byte (config.partition tpCount) i (tmp i)) := by
  intro c hc
  obtain ⟨i, hi, hc⟩ := List.mem_flatMap.mp hc
  obtain ⟨p, t, ht, -, hc⟩ := mem_loadWeightsBytes.mp hc
  obtain ⟨hdst, hlen⟩ := rawBytes_within (hb _ _ _ (Nat.mod_lt _ (recommendedNth_pos _))) hc
  rw [hdst]
  exact ⟨⟨List.mem_range.mp hi, Nat.div_lt_of_lt_mul ht⟩, hlen.trans (le_pageRoundUp _)⟩

/-- After the tasks the buffers of an expert that is not skipped hold what its place in the flat buffers holds. -/
theorem flat_byte (hh : h.Lawful) (hb : h.Bounded) {tmp : ℕ → Tensors Bf16}
    (hrun : Runs (((List.range tpCount).flatMap fun i =>
      loadWeightsBytes h fp32Byte (config.partition tpCount) i (tmp i)).map (Copy.place x.ptr)) ram ram')
    (hi : i < tpCount) {e : ℕ} (he : e < config.expertNum) (hskip : ¬ config.shouldSkipExpert e) (p : Proj) {a : ℕ}
    (ha : a < p.bufferSize (config.partition tpCount)) : ram' () (x.ptr (i, e, p) + a) =
      bufferBytes h fp32Byte (p.rows (config.partition tpCount)) (p.rowWeights (config.partition tpCount))
        config.groupSize
        (fun j => (tmp i).weight p (config.expertMap e *
          (p.rows (config.partition tpCount) * p.rowWeights (config.partition tpCount) / 2) + j))
        (fun j => (tmp i).scale p (config.expertMap e *
          (p.rows (config.partition tpCount) * (p.rowWeights (config.partition tpCount) / config.groupSize)) + j))
        a := by
  have hsize : a < p.extentBytes (config.partition tpCount) := ha.trans_le (le_pageRoundUp _)
  have hbuf : (i, e, p) ∈ bufs config tpCount := ⟨hi, he⟩
  refine hrun.placed_eq x.placed (loadWeightsBytes_within hb tmp) hbuf hsize ?_ ?_
  · obtain ⟨ith, hith, c, hc, hhit⟩ := exists_rawBytes fp32Byte hh
      (recommendedNth_pos (p.rows (config.partition tpCount))) ((i, e, p) : Buf) (fun j => (tmp i).weight p
        (config.expertMap e * (p.rows (config.partition tpCount) * p.rowWeights (config.partition tpCount) / 2) + j))
      (fun j => (tmp i).scale p (config.expertMap e *
        (p.rows (config.partition tpCount) * (p.rowWeights (config.partition tpCount) / config.groupSize)) + j)) ha
    obtain ⟨hdiv, hmod⟩ := piece_div_mod (t := e) hith
    refine ⟨c, List.mem_flatMap.mpr ⟨i, List.mem_range.mpr hi, mem_loadWeightsBytes.mpr
      ⟨p, e * recommendedNth (p.rows (config.partition tpCount)) + ith, ?_, ?_, ?_⟩⟩, hhit⟩
    · exact (piece_lt he hith).trans_eq (Nat.mul_comm _ _)
    · rw [hdiv]
      exact hskip
    · rw [hdiv, hmod]
      exact hc
  · intro c hc hhit
    obtain ⟨i', -, hc⟩ := List.mem_flatMap.mp hc
    obtain ⟨p', t, -, -, hc⟩ := mem_loadWeightsBytes.mp hc
    have hworker := Nat.mod_lt t (recommendedNth_pos (p'.rows (config.partition tpCount)))
    have hrows := hb (p'.rows (config.partition tpCount)) _ _ hworker
    have hkey := (rawBytes_within hrows hc).1.symm.trans hhit.1
    obtain ⟨rfl, hkey'⟩ := Prod.mk.inj hkey
    obtain ⟨he', rfl⟩ := Prod.mk.inj hkey'
    rw [rawBytes_eq hrows hc hhit, he']
    rfl

/-- **Booted.** The buffers of an expert that is staged and loaded hold its slice. -/
theorem booted_byte (hh : h.Lawful) (hb : h.Bounded) (hacc : Accepted config tpCount)
    (hboot : Boots h fp32Byte x source ram ram') (hi : i < tpCount) {e : ℕ} (he : e < config.expertNum)
    (hskip : ¬ config.shouldSkipExpert e) (hskip' : ¬ config.shouldSkipExpert (config.expertMap e)) (p : Proj) {a : ℕ}
    (ha : a < p.bufferSize (config.partition tpCount)) : ram' () (x.ptr (i, e, p) + a) =
      sliceBytes h fp32Byte config tpCount i (source.expert config (config.expertMap e)) p a := by
  obtain ⟨tmp, hstage, hrun⟩ := hboot
  obtain ⟨tmp₀, hweights, hscales⟩ := hstage i hi
  have hfit := hacc.fits hacc.two_dvd
  have hfit' := hacc.fits dvd_rfl
  rw [flat_byte hh hb hrun hi he hskip p ha]
  refine bufferBytes_congr (hacc.bufferB p) (fun j hj => ?_) (fun s hs => ?_) ha
  · rw [hfit.rows_mul] at hj
    rw [hfit.rows_mul_div]
    exact staged_cell hfit (fun e => (source.expert config e).weight) (mem_stage_weights hfit source) hweights he hskip'
      p hj
  · rw [hfit'.rows_mul] at hs
    rw [hfit'.rows_mul]
    exact staged_cell hfit' (fun e => (source.expert config e).scale) (mem_stage_scales source) hscales he hskip' p hs

variable (h fp32Byte x) in
/-- `load_weights` leaves something, whatever the flat buffers held before. -/
theorem exists_boots_from (source : Source Bf16) (tmp₀ : Tensors Bf16) (ram : Ram) :
    ∃ (tmp : ℕ → Tensors Bf16) (ram' : Ram),
      (∀ i, Runs (stage config (config.partition tpCount) i source).weights tmp₀.weight (tmp i).weight ∧
        Runs (stage config (config.partition tpCount) i source).scales tmp₀.scale (tmp i).scale) ∧
      Runs (((List.range tpCount).flatMap fun i =>
        loadWeightsBytes h fp32Byte (config.partition tpCount) i (tmp i)).map (Copy.place x.ptr)) ram ram' := by
  have hstage : ∀ i, ∃ tmp : Tensors Bf16,
      Runs (stage config (config.partition tpCount) i source).weights tmp₀.weight tmp.weight ∧
      Runs (stage config (config.partition tpCount) i source).scales tmp₀.scale tmp.scale := by
    intro i
    obtain ⟨weight, hweight⟩ := exists_runs (stage config (config.partition tpCount) i source).weights tmp₀.weight
    obtain ⟨scale, hscale⟩ := exists_runs (stage config (config.partition tpCount) i source).scales tmp₀.scale
    exact ⟨⟨weight, scale⟩, hweight, hscale⟩
  choose tmp htmp using hstage
  obtain ⟨ram', hrun⟩ := exists_runs (((List.range tpCount).flatMap fun i =>
    loadWeightsBytes h fp32Byte (config.partition tpCount) i (tmp i)).map (Copy.place x.ptr)) ram
  exact ⟨tmp, ram', htmp, hrun⟩

variable (h fp32Byte x) in
theorem exists_boots [Inhabited Bf16] (source : Source Bf16) (ram : Ram) :
    ∃ ram', Boots h fp32Byte x source ram ram' := by
  obtain ⟨tmp, ram', htmp, hrun⟩ := exists_boots_from h fp32Byte x source ⟨fun _ _ => 0, fun _ _ => default⟩ ram
  exact ⟨ram', tmp, fun i _ => ⟨_, htmp i⟩, hrun⟩

end Booted

end ExpertServe.PackedInt4
