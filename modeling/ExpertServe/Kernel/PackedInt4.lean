import ExpertServe.Lib.Copies

/-!
# The packed INT4 store of the CPU kernel

An expert on disk is three matrices of packed INT4 weights, two to a byte, with a bf16 scale for each group of a row.
`load_weights` gives each CPU partition its slice of the intermediate axis, through temporary flat buffers, and keeps
the scales as fp32. `write_weight_scale_to_buffer` streams one expert back, as the slices of the GPU ranks.

Loops and jobs are lists of copies, which a pool of workers does in any order; sizes are unbounded. `avx2::split_range`
and the conversions between bf16 and fp32 come from headers (`Headers`).

* `TpMoe.Loads`: what `load_weights` may leave in the partitions;
* `TpMoe.writeWeightScaleToBuffer`: the copies into the buffers of the GPU ranks;
* `gpuSlice`: the slice of an expert that belongs to a rank.
-/

namespace ExpertServe.PackedInt4

open Lib

/-! ## Data -/

/-- The projections of an expert: gate and up are `[intermediate, hidden]`, down is `[hidden, intermediate]`. -/
inductive Proj where
  | gate
  | up
  | down
deriving DecidableEq

/-- Weights and scales by projection, row-major. -/
structure Tensors (Bf16 : Type*) where
  weight : Proj → ℕ → UInt8
  scale : Proj → ℕ → Bf16

/-- What the kernel takes from headers: the conversions, and the range of rows of one worker out of `nth`. -/
structure Headers (Bf16 F32 : Type*) where
  bf16ToFp32 : Bf16 → F32
  fp32ToBf16 : F32 → Bf16
  splitRange : ℕ → ℕ → ℕ → ℕ × ℕ

/-- The conversion to fp32 and back is exact, and the ranges of the workers cover all rows. -/
structure Headers.Lawful {Bf16 F32 : Type*} (h : Headers Bf16 F32) : Prop where
  exact : ∀ x, h.fp32ToBf16 (h.bf16ToFp32 x) = x
  covers : ∀ n nth row, 0 < nth → row < n →
    ∃ ith < nth, (h.splitRange n ith nth).1 ≤ row ∧ row < (h.splitRange n ith nth).2

structure GeneralMOEConfig where
  expertNum : ℕ
  hiddenSize : ℕ
  intermediateSize : ℕ
  groupSize : ℕ
  zeroPoint : Bool
  physicalToLogicalMap : Option (ℕ → ℕ)
  gpuExpertsMask : Option (ℕ → Bool)

namespace GeneralMOEConfig

def shouldSkipExpert (config : GeneralMOEConfig) (expertId : ℕ) : Bool :=
  match config.gpuExpertsMask with
  | some mask => mask expertId
  | none => false

def expertMap (config : GeneralMOEConfig) (expertId : ℕ) : ℕ :=
  match config.physicalToLogicalMap with
  | some m => m expertId
  | none => expertId

/-- The configuration of each of `tpCount` partitions. -/
def partition (config : GeneralMOEConfig) (tpCount : ℕ) : GeneralMOEConfig :=
  { config with intermediateSize := config.intermediateSize / tpCount }

def maxSupportedGroupSize : ℕ := 256

/-- `derived_init`. -/
def derivedInit (config : GeneralMOEConfig) : Except String Unit :=
  if config.groupSize = 0 ∨ config.groupSize % 32 ≠ 0 then
    .error "AVX-512-VNNI PACKED RAWINT4 requires group_size to be a positive multiple of 32"
  else if maxSupportedGroupSize < config.groupSize then
    .error "AVX-512-VNNI PACKED RAWINT4 requires group_size <= 256"
  else if config.zeroPoint then
    .error "AVX-512-VNNI PACKED RAWINT4 only supports signed INT4 without zero point"
  else .ok ()

/-- The checks of the constructor of `BufferB` with rows of `k` weights. -/
def bufferB (k groupSize : ℕ) : Except String Unit :=
  if groupSize ≤ 0 ∨ groupSize % 32 ≠ 0 then
    .error "AVX-512 PACKED RAWINT4 requires group_size to be a positive multiple of 32"
  else if maxSupportedGroupSize < groupSize then .error "AVX-512 PACKED RAWINT4 requires group_size <= 256"
  else if k % 8 ≠ 0 ∨ k % groupSize ≠ 0 then
    .error "AVX-512 PACKED RAWINT4 requires k to be divisible by both 8 and group_size"
  else .ok ()

/-- The checks of the construction of a partition: its own, and those of its gate, up and down buffers. -/
def construct (tpc : GeneralMOEConfig) : Except String Unit := do
  tpc.derivedInit
  bufferB tpc.hiddenSize tpc.groupSize
  bufferB tpc.intermediateSize tpc.groupSize

end GeneralMOEConfig

/-- Copies of packed bytes and of scales, into buffers named by `κ`. -/
structure Work (κ β : Type*) where
  weights : List (Copy κ UInt8)
  scales : List (Copy κ β)

def Work.none {κ β : Type*} : Work κ β := ⟨[], []⟩

def Work.all {κ β : Type*} (ws : List (Work κ β)) : Work κ β := ⟨ws.flatMap Work.weights, ws.flatMap Work.scales⟩

/-! ## Loading -/

/-- The experts on disk: a pointer for each, or all of them concatenated. -/
inductive Source (Bf16 : Type*) where
  | perExpert (ptrs : ℕ → Tensors Bf16)
  | flat (proj : Tensors Bf16)

/-- An expert of the source. -/
def Source.expert {Bf16 : Type*} (config : GeneralMOEConfig) : Source Bf16 → ℕ → Tensors Bf16
  | .perExpert ptrs, expertId => ptrs expertId
  | .flat proj, expertId =>
    { weight := fun p j => proj.weight p (((expertId * config.intermediateSize * config.hiddenSize) >>> 1) + j)
      scale := fun p j =>
        match p with
        | .gate | .up =>
          proj.scale p (expertId * (config.hiddenSize / config.groupSize) * config.intermediateSize + j)
        | .down =>
          proj.scale p (expertId * (config.intermediateSize / config.groupSize) * config.hiddenSize + j) }

section Load

variable {Bf16 F32 : Type*} (h : Headers Bf16 F32)

/-- Partition `i` of one expert into the flat buffers: a contiguous slice of gate and up, a gather over the rows of
down. -/
def stageExpert (config tpc : GeneralMOEConfig) (i : ℕ) (src : Tensors Bf16) (expertId : ℕ) : Work Proj Bf16 :=
  let groupSize := config.groupSize
  let weightElemCount := tpc.intermediateSize * tpc.hiddenSize
  let scalesElemCount := tpc.hiddenSize / groupSize * tpc.intermediateSize
  let gateUpWeight (p : Proj) : Copy Proj UInt8 :=
    ⟨p, (expertId * weightElemCount) >>> 1, weightElemCount >>> 1,
      fun j => src.weight p (((i * weightElemCount) >>> 1) + j)⟩
  let gateUpScale (p : Proj) : Copy Proj Bf16 :=
    ⟨p, expertId * scalesElemCount, scalesElemCount, fun j => src.scale p (i * scalesElemCount + j)⟩
  { weights := gateUpWeight .gate :: gateUpWeight .up :: (List.range config.hiddenSize).map fun col =>
      ⟨.down, (expertId * weightElemCount + col * tpc.intermediateSize) >>> 1, tpc.intermediateSize >>> 1,
        fun j => src.weight .down (((col * config.intermediateSize + i * tpc.intermediateSize) >>> 1) + j)⟩
    scales := gateUpScale .gate :: gateUpScale .up :: (List.range config.hiddenSize).map fun col =>
      ⟨.down, expertId * scalesElemCount + col * (tpc.intermediateSize / groupSize), tpc.intermediateSize / groupSize,
        fun j => src.scale .down
          (col * (config.intermediateSize / groupSize) + i * (tpc.intermediateSize / groupSize) + j)⟩ }

/-- The first half of `TP_MOE::load_weights` on partition `i`; skipped experts are not staged. -/
def stage (config tpc : GeneralMOEConfig) (i : ℕ) (source : Source Bf16) : Work Proj Bf16 :=
  Work.all ((List.range tpc.expertNum).map fun physical =>
    let expertId := config.expertMap physical
    if config.shouldSkipExpert expertId then Work.none
    else stageExpert config tpc i (source.expert config expertId) expertId)

/-- `BufferB::from_raw_mat`: the rows of worker `ith` of `nth`, of an `[n, k]` matrix. -/
def fromRawMat {κ : Type*} (dst : κ) (n k groupSize : ℕ) (srcPacked : ℕ → UInt8) (srcScales : ℕ → Bf16)
    (ith nth : ℕ) : Work κ F32 :=
  let (start, stop) := h.splitRange n ith nth
  let rowBytes := k / 2
  let numGroups := k / groupSize
  let rows := List.range' start (stop - start)
  { weights := rows.map fun ni => ⟨dst, ni * rowBytes, rowBytes, fun j => srcPacked (ni * rowBytes + j)⟩
    scales := rows.map fun ni =>
      ⟨dst, ni * numGroups, numGroups, fun g => h.bf16ToFp32 (srcScales (ni * numGroups + g))⟩ }

def recommendedNth (n : ℕ) : ℕ := max 1 (n / 64)

/-- One task of `load_weights` of a partition for a projection with `[n, k]` matrices. -/
def loadTask (tpc : GeneralMOEConfig) (tmp : Tensors Bf16) (n k nth : ℕ) (p : Proj) (taskId : ℕ) :
    Work (ℕ × Proj) F32 :=
  let expertIdx := taskId / nth
  if tpc.shouldSkipExpert expertIdx then Work.none
  else
    let logical := tpc.expertMap expertIdx
    let ith := taskId % nth
    let weightBytesPerExpert := n * k / 2
    let scaleElemsPerExpert := n * (k / tpc.groupSize)
    fromRawMat h (expertIdx, p) n k tpc.groupSize (fun j => tmp.weight p (logical * weightBytesPerExpert + j))
      (fun j => tmp.scale p (logical * scaleElemsPerExpert + j)) ith nth

/-- The tasks of `load_weights` of a partition: one job does gate and up, another down. -/
def loadTasks (tpc : GeneralMOEConfig) (tmp : Tensors Bf16) : List (Work (ℕ × Proj) F32) :=
  let gateUpNth := recommendedNth tpc.intermediateSize
  let downNth := recommendedNth tpc.hiddenSize
  let gateUp (p : Proj) := loadTask h tpc tmp tpc.intermediateSize tpc.hiddenSize gateUpNth p
  let down := loadTask h tpc tmp tpc.hiddenSize tpc.intermediateSize downNth .down
  (List.range (gateUpNth * tpc.expertNum)).flatMap (fun taskId => [gateUp .gate taskId, gateUp .up taskId]) ++
    (List.range (downNth * tpc.expertNum)).map down

/-- `load_weights` of a partition, out of its flat buffers. -/
def loadWeights (tpc : GeneralMOEConfig) (tmp : Tensors Bf16) : Work (ℕ × Proj) F32 := Work.all (loadTasks h tpc tmp)

/-- The buffers of a partition: packed bytes and fp32 scales of each expert and projection. -/
structure Store (F32 : Type*) where
  weight : ℕ × Proj → ℕ → UInt8
  scale : ℕ × Proj → ℕ → F32

/-- Partition `i` may go from `store` to `store'`: the flat buffers start with anything, and the copies of each job are
done in some order. -/
def Store.Loads (config : GeneralMOEConfig) (tpCount : ℕ) (source : Source Bf16) (i : ℕ) (store store' : Store F32) :
    Prop :=
  let tpc := config.partition tpCount
  ∃ tmp₀ tmp : Tensors Bf16,
    Runs (stage config tpc i source).weights tmp₀.weight tmp.weight ∧
    Runs (stage config tpc i source).scales tmp₀.scale tmp.scale ∧
    Runs (loadWeights h tpc tmp).weights store.weight store'.weight ∧
    Runs (loadWeights h tpc tmp).scales store.scale store'.scale

end Load

/-! ## Writing -/

/-- The buffers of a GPU rank. -/
inductive GpuBuf where
  | w13
  | w2
deriving DecidableEq

def numWeightTasks : ℕ := 8

def minColsPerTask : ℕ := 128

def numDownTasks (hiddenSize : ℕ) : ℕ := min (max 1 (hiddenSize / minColsPerTask)) 32

/-- `(x + 63) & ~63`, with `x` the bytes of a task rounded up. -/
def weightChunkSize (bytes : ℕ) : ℕ := ((bytes + numWeightTasks - 1) / numWeightTasks + 63) / 64 * 64

/-- The tasks of one slice, by number: chunks of gate, chunks of up, chunks of the rows of down, then the two scales. -/
def dispatch {κ β : Type*} (downTasks : ℕ) (gate up down : ℕ → Work κ β) (gateScale upScale : Work κ β) (taskId : ℕ) :
    Work κ β :=
  if taskId < numWeightTasks then gate taskId
  else if taskId < numWeightTasks * 2 then up (taskId - numWeightTasks)
  else if taskId < numWeightTasks * 2 + downTasks then down (taskId - numWeightTasks * 2)
  else if taskId = numWeightTasks * 2 + downTasks then gateScale
  else upScale

/-- The rows of down of chunk `chunkIdx`: for each, the bytes and the scales of one slice. -/
def downTask {κ β : Type*} (hiddenSize : ℕ) (weight : ℕ → Copy κ UInt8) (scale : ℕ → Copy κ β) (chunkIdx : ℕ) :
    Work κ β :=
  let colsPerChunk := (hiddenSize + numDownTasks hiddenSize - 1) / numDownTasks hiddenSize
  let colStart := chunkIdx * colsPerChunk
  let colEnd := min (colStart + colsPerChunk) hiddenSize
  let cols := List.range' colStart (colEnd - colStart)
  ⟨cols.map weight, cols.map scale⟩

section Write

variable {Bf16 F32 : Type*} (h : Headers Bf16 F32)

/-- `write_weights_to_buffer` where a GPU rank takes the slices of one partition or more: the whole slice of this
partition, at its place in the buffers of the rank. -/
def writeToOneRank (tpPartIdx gpuTpCount cpuTpCount expertId : ℕ) (fullConfig tpc : GeneralMOEConfig)
    (store : Store F32) : Work (ℕ × GpuBuf) Bf16 :=
  let groupSize := tpc.groupSize
  let cpuTpWeightElemCount := tpc.intermediateSize * tpc.hiddenSize
  let cpuTpWeightBytes := cpuTpWeightElemCount / 2
  let cpuTpScaleElemCount := cpuTpWeightElemCount / groupSize
  let gpuTpWeightElemCount := fullConfig.intermediateSize * fullConfig.hiddenSize / gpuTpCount
  let gpuTpWeightBytes := gpuTpWeightElemCount / 2
  let gpuTpScaleElemCount := gpuTpWeightElemCount / groupSize
  let targetGpuTp := tpPartIdx / (cpuTpCount / gpuTpCount)
  let localIdx := tpPartIdx % (cpuTpCount / gpuTpCount)
  let offsetInGpuWeight := localIdx * cpuTpWeightBytes
  let offsetInGpuScale := localIdx * cpuTpScaleElemCount
  let chunkSize := weightChunkSize cpuTpWeightBytes
  let weightPerCol := tpc.intermediateSize >>> 1
  let scalePerCol := tpc.intermediateSize / groupSize
  let gpuWeightStride := (fullConfig.intermediateSize / gpuTpCount) >>> 1
  let gpuScaleStride := fullConfig.intermediateSize / gpuTpCount / groupSize
  let task := dispatch (numDownTasks tpc.hiddenSize)
    (fun t => ⟨chunk (targetGpuTp, .w13) offsetInGpuWeight cpuTpWeightBytes chunkSize
      (store.weight (expertId, .gate)) t, []⟩)
    (fun t => ⟨chunk (targetGpuTp, .w13) (offsetInGpuWeight + gpuTpWeightBytes) cpuTpWeightBytes chunkSize
      (store.weight (expertId, .up)) t, []⟩)
    (downTask tpc.hiddenSize
      (fun col => ⟨(targetGpuTp, .w2), col * gpuWeightStride + localIdx * weightPerCol, weightPerCol,
        fun j => store.weight (expertId, .down) (col * weightPerCol + j)⟩)
      fun col => ⟨(targetGpuTp, .w2), col * gpuScaleStride + localIdx * scalePerCol, scalePerCol,
        fun j => h.fp32ToBf16 (store.scale (expertId, .down) (col * scalePerCol + j))⟩)
    ⟨[], [⟨(targetGpuTp, .w13), offsetInGpuScale, cpuTpScaleElemCount,
      fun j => h.fp32ToBf16 (store.scale (expertId, .gate) j)⟩]⟩
    ⟨[], [⟨(targetGpuTp, .w13), offsetInGpuScale + gpuTpScaleElemCount, cpuTpScaleElemCount,
      fun j => h.fp32ToBf16 (store.scale (expertId, .up) j)⟩]⟩
  Work.all ((List.range (numWeightTasks * 2 + numDownTasks tpc.hiddenSize + 2)).map task)

/-- A task of `write_weights_to_buffer` where a partition feeds several GPU ranks: one kind of work on the part of rank
`localGpuIdx` of those it feeds. -/
def manyRanksTask (tpPartIdx gpuTpCount cpuTpCount expertId : ℕ) (fullConfig tpc : GeneralMOEConfig)
    (store : Store F32) (localGpuIdx taskType : ℕ) : Work (ℕ × GpuBuf) Bf16 :=
  let groupSize := tpc.groupSize
  let cpuTpWeightElemCount := tpc.intermediateSize * tpc.hiddenSize
  let cpuTpWeightBytes := cpuTpWeightElemCount / 2
  let cpuTpScaleElemCount := cpuTpWeightElemCount / groupSize
  let gpuTpWeightElemCount := fullConfig.intermediateSize * fullConfig.hiddenSize / gpuTpCount
  let gpuTpWeightBytes := gpuTpWeightElemCount / 2
  let gpuTpScaleElemCount := gpuTpWeightElemCount / groupSize
  let gpuTpsPerCpuTp := gpuTpCount / cpuTpCount
  let startGpuTp := tpPartIdx * gpuTpsPerCpuTp
  let dataPerGpuTpWeight := cpuTpWeightBytes / gpuTpsPerCpuTp
  let dataPerGpuTpScale := cpuTpScaleElemCount / gpuTpsPerCpuTp
  let chunkSize := weightChunkSize dataPerGpuTpWeight
  let weightPerGpuCol := (tpc.intermediateSize / gpuTpsPerCpuTp) >>> 1
  let scalePerGpuCol := tpc.intermediateSize / gpuTpsPerCpuTp / groupSize
  let gpuTpIdx := startGpuTp + localGpuIdx
  let cpuOffsetWeight := localGpuIdx * dataPerGpuTpWeight
  let cpuOffsetScale := localGpuIdx * dataPerGpuTpScale
  dispatch (numDownTasks tpc.hiddenSize)
    (fun t => ⟨chunk (gpuTpIdx, .w13) 0 dataPerGpuTpWeight chunkSize
      (fun j => store.weight (expertId, .gate) (cpuOffsetWeight + j)) t, []⟩)
    (fun t => ⟨chunk (gpuTpIdx, .w13) gpuTpWeightBytes dataPerGpuTpWeight chunkSize
      (fun j => store.weight (expertId, .up) (cpuOffsetWeight + j)) t, []⟩)
    (downTask tpc.hiddenSize
      (fun col => ⟨(gpuTpIdx, .w2), col * weightPerGpuCol, weightPerGpuCol,
        fun j => store.weight (expertId, .down)
          (col * tpc.intermediateSize / 2 + localGpuIdx * dataPerGpuTpWeight / tpc.hiddenSize + j)⟩)
      fun col => ⟨(gpuTpIdx, .w2), col * scalePerGpuCol, scalePerGpuCol,
        fun j => h.fp32ToBf16 (store.scale (expertId, .down)
          (col * (tpc.intermediateSize / groupSize) + localGpuIdx * dataPerGpuTpScale / tpc.hiddenSize + j))⟩)
    ⟨[], [⟨(gpuTpIdx, .w13), 0, dataPerGpuTpScale,
      fun j => h.fp32ToBf16 (store.scale (expertId, .gate) (cpuOffsetScale + j))⟩]⟩
    ⟨[], [⟨(gpuTpIdx, .w13), gpuTpScaleElemCount, dataPerGpuTpScale,
      fun j => h.fp32ToBf16 (store.scale (expertId, .up) (cpuOffsetScale + j))⟩]⟩
    taskType

/-- `write_weights_to_buffer` where a partition feeds several GPU ranks. -/
def writeToManyRanks (tpPartIdx gpuTpCount cpuTpCount expertId : ℕ) (fullConfig tpc : GeneralMOEConfig)
    (store : Store F32) : Work (ℕ × GpuBuf) Bf16 :=
  let gpuTpsPerCpuTp := gpuTpCount / cpuTpCount
  let tasksPerGpuTp := numWeightTasks * 2 + numDownTasks tpc.hiddenSize + 2
  Work.all ((List.range (tasksPerGpuTp * gpuTpsPerCpuTp)).map fun taskId =>
    manyRanksTask h tpPartIdx gpuTpCount cpuTpCount expertId fullConfig tpc store (taskId / tasksPerGpuTp)
      (taskId % tasksPerGpuTp))

/-- `write_weights_to_buffer` of partition `tpPartIdx`. The buffers of every expert exist from construction on. -/
def writeWeightsToBuffer (tpPartIdx gpuTpCount cpuTpCount expertId : ℕ) (fullConfig tpc : GeneralMOEConfig)
    (store : Store F32) : Except String (Work (ℕ × GpuBuf) Bf16) :=
  if tpc.expertNum ≤ expertId then
    .error "PACKED RAWINT4 write_weights_to_buffer requested an expert without loaded weights"
  else if gpuTpCount ≤ cpuTpCount then
    .ok (writeToOneRank h tpPartIdx gpuTpCount cpuTpCount expertId fullConfig tpc store)
  else .ok (writeToManyRanks h tpPartIdx gpuTpCount cpuTpCount expertId fullConfig tpc store)

/-! ## All partitions -/

structure TpMoe (F32 : Type*) where
  config : GeneralMOEConfig
  tpCount : ℕ
  weightsLoaded : Bool
  stores : ℕ → Store F32

/-- `TP_MOE::load_weights` may take `moe` to `moe'`. -/
def TpMoe.Loads (source : Source Bf16) (moe moe' : TpMoe F32) : Prop :=
  ∃ stores, moe' = { moe with stores, weightsLoaded := true } ∧
    ∀ i < moe.tpCount, Store.Loads h moe.config moe.tpCount source i (moe.stores i) (stores i)

/-- The lengths of the arrays of pointers to the buffers of the ranks. -/
structure PtrCounts where
  w13Weight : ℕ
  w13Scale : ℕ
  w2Weight : ℕ
  w2Scale : ℕ

/-- `write_weight_scale_to_buffer`. -/
def TpMoe.writeWeightScaleToBuffer (moe : TpMoe F32) (gpuTpCount expertId : ℕ) (ptrs : PtrCounts) :
    Except String (Work (ℕ × GpuBuf) Bf16) :=
  if ¬ moe.weightsLoaded then .error "Not Loaded"
  else if ptrs.w13Weight ≠ gpuTpCount ∨ ptrs.w13Scale ≠ gpuTpCount ∨ ptrs.w2Weight ≠ gpuTpCount ∨
      ptrs.w2Scale ≠ gpuTpCount then
    .error "Pointer arrays size must match gpu_tp_count"
  else do
    let works ← (List.range moe.tpCount).mapM fun i =>
      writeWeightsToBuffer h i gpuTpCount moe.tpCount expertId moe.config (moe.config.partition moe.tpCount)
        (moe.stores i)
    return Work.all works

end Write

/-! ## The slice of a rank -/

section Slice

variable {α : Type*}

/-- Cell `p` of the gate rows, then the up rows, of `rows` rows of `cols` cells of rank `rank`. -/
def sliceW13 (gate up : ℕ → α) (rows cols rank p : ℕ) : Option α :=
  let row (m : ℕ → α) (q : ℕ) := m ((rank * rows + q / cols) * cols + q % cols)
  if p < rows * cols then some (row gate p)
  else if p < 2 * (rows * cols) then some (row up (p - rows * cols))
  else none

/-- Cell `p` of the columns of rank `rank`, `cols` out of `fullCols` of each row. -/
def sliceW2 (down : ℕ → α) (rows fullCols cols rank p : ℕ) : Option α :=
  if p < rows * cols then some (down (p / cols * fullCols + rank * cols + p % cols)) else none

/-- The cells of a buffer of a rank: the bytes of its weights with `unit` 2, its scales with `unit` a group. -/
def bufCells (config : GeneralMOEConfig) (gpuTpCount unit : ℕ) : GpuBuf → ℕ
  | .w13 => 2 * (config.intermediateSize / gpuTpCount * (config.hiddenSize / unit))
  | .w2 => config.hiddenSize * (config.intermediateSize / gpuTpCount / unit)

/-- The slices of the ranks of a tensor with `unit` weights to a cell: 2 for the packed bytes, a group for the
scales. -/
def gpuSlice (config : GeneralMOEConfig) (gpuTpCount unit : ℕ) (tensor : Proj → ℕ → α) : Region (ℕ × GpuBuf) α :=
  fun (rank, buf) p =>
    let rankIntermediate := config.intermediateSize / gpuTpCount
    if rank < gpuTpCount then
      match buf with
      | .w13 => sliceW13 (tensor .gate) (tensor .up) rankIntermediate (config.hiddenSize / unit) rank p
      | .w2 =>
        sliceW2 (tensor .down) config.hiddenSize (config.intermediateSize / unit) (rankIntermediate / unit) rank p
    else none

/-- The slices fill the buffers of the ranks. -/
theorem gpuSlice_isSome (config : GeneralMOEConfig) (gpuTpCount unit : ℕ) (tensor : Proj → ℕ → α) (k : ℕ × GpuBuf)
    (p : ℕ) : (gpuSlice config gpuTpCount unit tensor k p).isSome ↔
      k.1 < gpuTpCount ∧ p < bufCells config gpuTpCount unit k.2 := by
  obtain ⟨rank, _ | _⟩ := k
  · simp only [gpuSlice, bufCells, sliceW13]
    split_ifs <;> simp <;> omega
  · simp only [gpuSlice, bufCells, sliceW2]
    split_ifs <;> simp <;> omega

end Slice

end ExpertServe.PackedInt4
