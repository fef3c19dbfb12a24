import ExpertServe.Lib.Scatter
import Mathlib.Data.List.Perm.Basic
import Mathlib.Data.List.ProdSigma

/-!
# Gathering experts out of the CPU store

`stream_experts` gathers listed experts out of the partitions of the CPU store straight into slots of the layout the
GPU kernels consume, one kernel for each of four tensors. The load path gets the same tensors by putting the partitions
together and passing the scales through `interleave_scales`.

* `kW13Weights`, `kW2Weights`, `kW13Scales`, `kW2Scales`, `streamExperts`: the kernels and their launch;
* `loadedW13`, `loadedW2`, `loadedW13Scales`, `loadedW2Scales`: the slots of the load path;
* `Gathered`, `GatherJob.Loads`: what a gather is to leave behind;
* `Sizes.Fits`: the sizes the index arithmetic of the kernels is made for;
* `launch_gathered`: a launch gathers when its places can be read back and bring what the load path has there.
-/

namespace ExpertServe.Gather

open Lib

variable {F32 Bf16 α : Type*}

/-! ## The store -/

/-- The memory of one region of the store, read as bytes or as floats. -/
structure HostRegion (F32 : Type*) where
  byte : ℕ → UInt8
  float : ℕ → F32

/-- The CPU store by region, partition and expert. Regions are the weights and scales of gate, up and down. -/
abbrev CpuStore (F32 : Type*) := ℕ → ℕ → ℕ → HostRegion F32

/-- `build_pointer_table`: the store as the flat table the kernels read through. -/
def buildPointerTable (store : CpuStore F32) (nTp nExp : ℕ) : ℕ → HostRegion F32 := fun i =>
  store (i / (nTp * nExp)) (i / nExp % nTp) (i % nExp)

/-- `tbl`: the pointer of one region of one expert. -/
def tbl (p : ℕ → HostRegion F32) (region tp expert nTp nExp : ℕ) : HostRegion F32 :=
  p ((region * nTp + tp) * nExp + expert)

theorem tbl_buildPointerTable (store : CpuStore F32) {nTp nExp tp e : ℕ} (region : ℕ) (htp : tp < nTp) (he : e < nExp) :
    tbl (buildPointerTable store nTp nExp) region tp e nTp nExp = store region tp e := by
  obtain ⟨hrow, hexp⟩ := piece_div_mod (t := region * nTp + tp) he
  obtain ⟨hregion, htp'⟩ := piece_div_mod (t := region) htp
  unfold tbl buildPointerTable
  rw [hexp, hrow, htp', Nat.mul_comm nTp, ← Nat.div_div_eq_div_mul, hrow, hregion]

/-! ## The kernels -/

/-- A launch of `blocks` by `rows` blocks of 256 threads for each slot: `body slot expert row i` is what the thread
that comes to `i` in its row writes. A thread of a slot without an expert returns. -/
def launch (blocks rows : ℕ) (sel : List ℤ) (total : ℕ) (body : ℕ → ℕ → ℕ → ℕ → Copy Unit α) : List (Copy Unit α) :=
  (List.range sel.length).flatMap fun slot => (List.range rows).flatMap fun row =>
    (List.range blocks).flatMap fun block => (List.range 256).flatMap fun thread =>
      match listed sel slot with
      | some e => (gridStride (block * 256 + thread) (blocks * 256) total).map (body slot e row)
      | none => []

/-- `k_w13_weights`: four row-blocks a slot, sixteen bytes at a time. -/
def kW13Weights (ptrs : ℕ → HostRegion F32) (sel : List ℤ) (nTp nExp vecPerTpBlock vecPerSlot blocks : ℕ) :
    List (Copy Unit UInt8) :=
  launch blocks (2 * nTp) sel vecPerTpBlock fun slot e blk i =>
    let tp := blk % nTp
    let isUp := blk / nTp
    let src := tbl ptrs (if isUp = 0 then 0 else 2) tp e nTp nExp
    ⟨(), 16 * (slot * vecPerSlot + (isUp * nTp + tp) * vecPerTpBlock + i), 16, fun j => src.byte (16 * i + j)⟩

/-- `k_w2_weights`: the partitions side by side in each row, sixteen bytes at a time. -/
def kW2Weights (ptrs : ℕ → HostRegion F32) (sel : List ℤ) (nTp nExp hidden vecPerRow dstVecRow bytesPerSlot blocks : ℕ) :
    List (Copy Unit UInt8) :=
  launch blocks nTp sel (hidden * vecPerRow) fun slot e tp i =>
    let src := tbl ptrs 4 tp e nTp nExp
    let r := i / vecPerRow
    let c := i - r * vecPerRow
    ⟨(), slot * bytesPerSlot + tp * vecPerRow * 16 + 16 * (r * dstVecRow + c), 16, fun j => src.byte (16 * i + j)⟩

/-- `k_w13_scales`: the scales converted and interleaved by four. -/
def kW13Scales (float2bfloat16 : F32 → Bf16) (ptrs : ℕ → HostRegion F32) (sel : List ℤ)
    (nTp nExp moe g tpMoe elemsPerSlot blocks : ℕ) : List (Copy Unit Bf16) :=
  launch blocks (2 * nTp) sel (tpMoe * g) fun slot e blk i =>
    let tp := blk % nTp
    let isUp := blk / nTp
    let src := tbl ptrs (if isUp = 0 then 1 else 3) tp e nTp nExp
    let n4 := 2 * moe * 4
    let r := i / g
    let c := i - r * g
    let n := isUp * moe + tp * tpMoe + r
    ⟨(), slot * elemsPerSlot + ((c >>> 2) * n4 + n * 4 + (c &&& 3)), 1, fun _ => float2bfloat16 (src.float i)⟩

/-- `k_w2_scales`: the same, where the partitions are side by side in each row. -/
def kW2Scales (float2bfloat16 : F32 → Bf16) (ptrs : ℕ → HostRegion F32) (sel : List ℤ)
    (nTp nExp hidden tpG elemsPerSlot blocks : ℕ) : List (Copy Unit Bf16) :=
  launch blocks nTp sel (hidden * tpG) fun slot e tp i =>
    let src := tbl ptrs 5 tp e nTp nExp
    let n4 := hidden * 4
    let r := i / tpG
    let c := i - r * tpG
    let g := tp * tpG + c
    ⟨(), slot * elemsPerSlot + ((g >>> 2) * n4 + r * 4 + (g &&& 3)), 1, fun _ => float2bfloat16 (src.float i)⟩

/-- Tensor-parallel degree, MoE width, hidden size and quantisation group. -/
structure Sizes where
  nTp : ℕ
  moe : ℕ
  hidden : ℕ
  group : ℕ

/-- `tp_moe`: the width of a partition. -/
def Sizes.tpMoe (sz : Sizes) : ℕ := sz.moe / sz.nTp

/-- The writes of a gather into each of its four tensors. -/
structure GatherJob (Bf16 : Type*) where
  w13 : List (Copy Unit UInt8)
  w2 : List (Copy Unit UInt8)
  w13Scales : List (Copy Unit Bf16)
  w2Scales : List (Copy Unit Bf16)

/-- `stream_experts`. Sizes that are divided by are not zero; the row pitches of w2 are checked. -/
def streamExperts (float2bfloat16 : F32 → Bf16) (ptrs : ℕ → HostRegion F32) (sel : List ℤ) (nExp : ℕ) (sz : Sizes)
    (blocks : ℕ) : Option (GatherJob Bf16) :=
  if sz.nTp = 0 ∨ sz.group = 0 then none
  else
    let vecPerTpBlock := sz.tpMoe * sz.hidden / 2 / 16
    let vecPerSlot := vecPerTpBlock * 2 * sz.nTp
    let srcRowBytes := sz.tpMoe / 2
    let dstRowBytes := sz.moe / 2
    let g := sz.hidden / sz.group
    let g2 := sz.moe / sz.group
    let tpG := g2 / sz.nTp
    if srcRowBytes % 16 = 0 ∧ dstRowBytes % 16 = 0 then
      some
        { w13 := kW13Weights ptrs sel sz.nTp nExp vecPerTpBlock vecPerSlot blocks
          w2 := kW2Weights ptrs sel sz.nTp nExp sz.hidden (srcRowBytes / 16) (dstRowBytes / 16)
            (sz.hidden * dstRowBytes) blocks
          w13Scales := kW13Scales float2bfloat16 ptrs sel sz.nTp nExp sz.moe g sz.tpMoe (2 * sz.moe * g) blocks
          w2Scales := kW2Scales float2bfloat16 ptrs sel sz.nTp nExp sz.hidden tpG (sz.hidden * g2) blocks }
    else none

/-! ## The load path -/

/-- The rows of the partitions one under the other, `rows` each. -/
def concatRows (nTp rows : ℕ) (part : ℕ → ℕ → ℕ → α) : ℕ → ℕ → Option α := fun n c =>
  if n / rows < nTp ∧ n % rows < rows then some (part (n / rows) (n % rows) c) else none

/-- The columns of the partitions side by side, `cols` each. -/
def concatCols (nTp cols : ℕ) (part : ℕ → ℕ → ℕ → α) : ℕ → ℕ → Option α := fun r c =>
  if c / cols < nTp ∧ c % cols < cols then some (part (c / cols) r (c % cols)) else none

/-- The rows of gate over those of up. -/
def gateOverUp {β : Type*} (moe : ℕ) (gate up : ℕ → ℕ → β) : ℕ → ℕ → β := fun n c =>
  if n < moe then gate n c else up (n - moe) c

/-- A matrix cell by cell. -/
def flat {β : Type*} (cols : ℕ) (mat : ℕ → ℕ → β) : ℕ → β := fun q => mat (q / cols) (q % cols)

/-- `interleave_scales`, cell by cell: reshape to `[rows, cols / a, a]`, permute to `[cols / a, rows, a]`, flatten. -/
def interleaveScales {β : Type*} (rows cols : ℕ) (scales : ℕ → ℕ → β) : ℕ → β :=
  let alignment := if cols % 4 = 0 then 4 else 1
  fun q => scales (q / alignment % rows) (q / alignment / rows * alignment + q % alignment)

namespace Sizes

variable (sz : Sizes)

/-- The cells of a slot of each tensor. -/
def w13Cells : ℕ := 2 * sz.moe * (sz.hidden / 2)
def w2Cells : ℕ := sz.hidden * (sz.moe / 2)
def w13ScaleCells : ℕ := 2 * sz.moe * (sz.hidden / sz.group)
def w2ScaleCells : ℕ := sz.hidden * (sz.moe / sz.group)

/-- A slot of w13: gate rows, then up rows, of one partition after the other. -/
def loadedW13 (store : CpuStore F32) (e : ℕ) : ℕ → Option UInt8 :=
  flat (sz.hidden / 2) <| gateOverUp sz.moe
    (concatRows sz.nTp sz.tpMoe fun tp r c => (store 0 tp e).byte (r * (sz.hidden / 2) + c))
    (concatRows sz.nTp sz.tpMoe fun tp r c => (store 2 tp e).byte (r * (sz.hidden / 2) + c))

/-- A slot of w2: the partitions side by side. -/
def loadedW2 (store : CpuStore F32) (e : ℕ) : ℕ → Option UInt8 :=
  flat (sz.moe / 2) (concatCols sz.nTp (sz.tpMoe / 2) fun tp r c => (store 4 tp e).byte (r * (sz.tpMoe / 2) + c))

/-- A slot of the scales of w13. -/
def loadedW13Scales (float2bfloat16 : F32 → Bf16) (store : CpuStore F32) (e : ℕ) : ℕ → Option Bf16 :=
  let g := sz.hidden / sz.group
  interleaveScales (2 * sz.moe) g <| gateOverUp sz.moe
    (concatRows sz.nTp sz.tpMoe fun tp r c => float2bfloat16 ((store 1 tp e).float (r * g + c)))
    (concatRows sz.nTp sz.tpMoe fun tp r c => float2bfloat16 ((store 3 tp e).float (r * g + c)))

/-- A slot of the scales of w2. -/
def loadedW2Scales (float2bfloat16 : F32 → Bf16) (store : CpuStore F32) (e : ℕ) : ℕ → Option Bf16 :=
  let tpG := sz.tpMoe / sz.group
  interleaveScales sz.hidden (sz.moe / sz.group)
    (concatCols sz.nTp tpG fun tp r c => float2bfloat16 ((store 5 tp e).float (r * tpG + c)))

end Sizes

/-- Each cell of each listed slot has a value on the load path and is written once, with it, and no other cell is
written. -/
structure Gathered (size : ℕ) (sel : List ℤ) (cell : ℕ → ℕ → Option α) (cs : List (Copy Unit α)) : Prop where
  whole : ∀ slot e, listed sel slot = some e → ∀ q < size, (cell e q).isSome
  lays : Lays cs (slotRegion () size sel cell)

/-- A gather leaves every listed slot of every tensor as the load path does, cell by cell written once, and nothing
else. -/
structure GatherJob.Loads (float2bfloat16 : F32 → Bf16) (store : CpuStore F32) (sel : List ℤ) (sz : Sizes)
    (job : GatherJob Bf16) : Prop where
  w13 : Gathered sz.w13Cells sel (sz.loadedW13 store) job.w13
  w2 : Gathered sz.w2Cells sel (sz.loadedW2 store) job.w2
  w13Scales : Gathered sz.w13ScaleCells sel (sz.loadedW13Scales float2bfloat16 store) job.w13Scales
  w2Scales : Gathered sz.w2ScaleCells sel (sz.loadedW2Scales float2bfloat16 store) job.w2Scales

/-- The sizes the kernels are made for: partitions of whole rows, of whole bytes in each row, in vectors of sixteen; as
many groups as partitions divide; and groups by four, as the kernels interleave them whatever their number. -/
structure Sizes.Fits (sz : Sizes) : Prop where
  rows : sz.nTp ∣ sz.moe
  bytes : sz.tpMoe * sz.hidden / 2 = sz.tpMoe * (sz.hidden / 2)
  vectors : 16 ∣ sz.tpMoe * (sz.hidden / 2)
  columns : sz.nTp * (sz.tpMoe / 2) = sz.moe / 2
  groups : sz.nTp ∣ sz.moe / sz.group
  hiddenByFour : 4 ∣ sz.hidden / sz.group
  moeByFour : 4 ∣ sz.moe / sz.group

/-- No slot of any tensor has a cell. -/
structure Sizes.Empty (sz : Sizes) : Prop where
  w13 : sz.w13Cells = 0
  w2 : sz.w2Cells = 0
  w13Scales : sz.w13ScaleCells = 0
  w2Scales : sz.w2ScaleCells = 0

/-! ## Launches -/

section Launch

variable {blocks rows total : ℕ} {sel : List ℤ} {body : ℕ → ℕ → ℕ → ℕ → Copy Unit α}

/-- The rows and numbers the threads of one slot come to. -/
def tasks (rows total : ℕ) : List (ℕ × ℕ) := List.range rows ×ˢ List.range total

theorem mem_tasks {t : ℕ × ℕ} : t ∈ tasks rows total ↔ t.1 < rows ∧ t.2 < total := by
  obtain ⟨row, i⟩ := t
  rw [tasks, List.mem_product, List.mem_range, List.mem_range]

theorem tasks_nodup : (tasks rows total).Nodup := List.nodup_range.product List.nodup_range

/-- **A launch does every task of every listed slot once.** -/
theorem launch_perm (hblocks : 0 < blocks) : (launch blocks rows sel total body).Perm
    ((List.range sel.length).flatMap fun slot =>
      ((listed sel slot).map fun e => (tasks rows total).map fun t => body slot e t.1 t.2).getD []) := by
  refine List.Perm.flatMap_left _ fun slot _ => ?_
  cases listed sel slot with
  | none => simp
  | some e =>
    have htasks : (tasks rows total).map (fun t => body slot e t.1 t.2) =
        (List.range rows).flatMap fun row => (List.range total).map (body slot e row) := by
      show ((List.range rows).flatMap fun row => (List.range total).map (Prod.mk row)).map _ = _
      rw [List.map_flatMap]
      refine List.flatMap_congr fun row _ => ?_
      rw [List.map_map]
      rfl
    show List.Perm _ ((tasks rows total).map fun t => body slot e t.1 t.2)
    rw [htasks]
    refine List.Perm.flatMap_left _ fun row _ => ?_
    have hgrid := (blockStride_perm total hblocks (by decide : 0 < 256)).map (body slot e row)
    simpa only [List.map_flatMap] using hgrid

theorem mem_launch (hblocks : 0 < blocks) {c : Copy Unit α} : c ∈ launch blocks rows sel total body ↔
    ∃ slot e, listed sel slot = some e ∧ ∃ row < rows, ∃ i < total, c = body slot e row i := by
  rw [(launch_perm hblocks).mem_iff, List.mem_flatMap]
  constructor
  · rintro ⟨slot, -, hc⟩
    cases he : listed sel slot with
    | none => simp [he] at hc
    | some e =>
      simp only [he, Option.map_some, Option.getD_some] at hc
      obtain ⟨t, ht, rfl⟩ := List.mem_map.mp hc
      obtain ⟨hrow, hi⟩ := mem_tasks.mp ht
      exact ⟨slot, e, he, t.1, hrow, t.2, hi, rfl⟩
  · rintro ⟨slot, e, he, row, hrow, i, hi, rfl⟩
    refine ⟨slot, List.mem_range.mpr (listed_lt he), ?_⟩
    simp only [he, Option.map_some, Option.getD_some]
    exact List.mem_map.mpr ⟨(row, i), mem_tasks.mpr ⟨hrow, hi⟩, rfl⟩

/-- **A launch gathers**, when each task writes `len` cells of its slot, can be read back from each of them, and brings
what the load path has there. -/
theorem launch_gathered (hblocks : 0 < blocks) {size : ℕ} {cell : ℕ → ℕ → Option α} (len : ℕ) (place : ℕ × ℕ → ℕ)
    (val : ℕ → ℕ × ℕ → ℕ → α) (task : ℕ → ℕ × ℕ)
    (hbody : ∀ slot e row i, listed sel slot = some e → row < rows → i < total →
      body slot e row i = ⟨(), slot * size + place (row, i), len, val e (row, i)⟩)
    (hplace : ∀ slot e, listed sel slot = some e → ∀ t ∈ tasks rows total, ∀ j < len,
      place t + j < size ∧ task (place t + j) = t ∧ cell e (place t + j) = some (val e t j))
    (hcover : ∀ p < size, task p ∈ tasks rows total ∧ place (task p) ≤ p ∧ p < place (task p) + len) :
    Gathered size sel cell (launch blocks rows sel total body) := by
  -- what the task of a cell brings to it
  have hcell : ∀ slot e, listed sel slot = some e → ∀ p < size,
      cell e p = some (val e (task p) (p - place (task p))) := fun slot e he p hp => by
    obtain ⟨hmem, hfrom, hto⟩ := hcover p hp
    obtain ⟨-, -, hval⟩ := hplace slot e he (task p) hmem (p - place (task p)) (by omega)
    rwa [Nat.add_sub_cancel' hfrom] at hval
  refine ⟨fun slot e he q hq => by rw [hcell slot e he q hq]; rfl, ?_⟩
  refine (lays_slots (fun e p => val e (task p) (p - place (task p))) (fun slot e he => ?_) hcell).perm
    (launch_perm hblocks).symm
  have hmap : (tasks rows total).map (fun t => body slot e t.1 t.2) =
      (tasks rows total).map fun t => ⟨(), slot * size + place t, len, val e t⟩ :=
    List.map_congr_left fun t ht => hbody slot e t.1 t.2 he (mem_tasks.mp ht).1 (mem_tasks.mp ht).2
  rw [hmap]
  refine lays_scatter tasks_nodup () (slot * size) size len place (val e) _ task (fun t ht j hj => ?_) hcover
  obtain ⟨hsize, htask, -⟩ := hplace slot e he t ht j hj
  refine ⟨hsize, htask, ?_⟩
  show val e (task (place t + j)) (place t + j - place (task (place t + j))) = val e t j
  rw [htask, Nat.add_sub_cancel_left]

/-- Without listed slots a launch has nothing to gather. -/
theorem launch_none (hblocks : 0 < blocks) {cell : ℕ → ℕ → Option α} {size : ℕ}
    (hnone : ∀ slot, listed sel slot = none) :
    Gathered size sel cell (launch blocks rows sel total body) := by
  have hempty : launch blocks rows sel total body = [] := by
    refine List.eq_nil_iff_forall_not_mem.mpr fun c hc => ?_
    obtain ⟨slot, e, he, -⟩ := (mem_launch hblocks).mp hc
    rw [hnone] at he
    exact Option.some_ne_none e he.symm
  refine ⟨fun slot e he => absurd ((hnone slot).symm.trans he) (Option.some_ne_none e).symm, ?_⟩
  rw [hempty]
  refine lays_nil.congr fun k p => ?_
  unfold slotRegion
  rw [hnone]
  exact (ite_self none).symm

/-- A launch without tasks has nothing to gather into slots without cells. -/
theorem launch_zero (hblocks : 0 < blocks) {cell : ℕ → ℕ → Option α} {size : ℕ} (htotal : total = 0)
    (hsize : size = 0) : Gathered size sel cell (launch blocks rows sel total body) := by
  subst htotal hsize
  refine launch_gathered hblocks 0 (fun _ => 0) (fun e t j => (body 0 e t.1 t.2).val j) (fun _ => (0, 0)) ?_ ?_ ?_
  · exact fun _ _ _ _ _ _ hi => absurd hi (Nat.not_lt_zero _)
  · exact fun _ _ _ _ _ j hj => absurd hj (Nat.not_lt_zero j)
  · exact fun p hp => absurd hp (Nat.not_lt_zero p)

end Launch

end ExpertServe.Gather
