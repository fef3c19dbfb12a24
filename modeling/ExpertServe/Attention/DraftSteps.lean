import ExpertServe.Lib.Updates
import Mathlib.Data.List.GetD
import Mathlib.Data.Set.Insert
import Mathlib.Data.Nat.Basic
import Mathlib.Order.Basic
import Mathlib.Tactic.Common

/-!
# The metadata of the draft steps

A draft of `speculative_num_steps` steps has an attention backend for each step but the last. Step `i` attends to the
prompt and to the `i` draft tokens before it, so its metadata should describe `seq_lens + i` keys for each request. The
metadata is prepared eagerly, at capture, or at replay (with the precompute switched off); in decode mode throughout.

* `SubBackend`: one backend, with the buffers of its graphs;
* `prepare`: the three paths over all steps;
* `Describes`: what the metadata of a step should be;
* `Reached`: the states after any preparations;
* `eager_describes_iff`, `capture_describes`, `replay_ok_iff`: one backend;
* `draftSteps_iff`: exactly when every step is described.
-/

namespace ExpertServe.DraftSteps

open Lib

/-! ## Data -/

/-- `req_to_token`: for each request of the pool a row of `width` key slots. -/
structure ReqToToken where
  width : ℕ
  slot : ℕ → ℕ → BitVec 32

/-- Rows of key slots. -/
structure Table where
  cols : ℕ
  get : ℕ → ℕ → BitVec 32

/-- `req_to_token[req_pool_indices, :max_len]`. -/
def ReqToToken.rows (pool : ReqToToken) (reqPoolIndices : List ℕ) (maxLen : ℕ) : Table :=
  ⟨min maxLen pool.width, fun r j => pool.slot (reqPoolIndices.getD r 0) j⟩

structure NSAMetadata where
  cacheSeqlensInt32 : List (BitVec 32)
  maxSeqLenK : ℕ
  cuSeqlensK : List (BitVec 32)
  pageTable1 : Table

/-- The requests of a batch, each with its sequence length and its row of the pool. -/
structure ForwardBatch where
  requests : List (ℕ × ℕ)
  pool : ReqToToken

namespace ForwardBatch

def batchSize (fb : ForwardBatch) : ℕ := fb.requests.length

def seqLens (fb : ForwardBatch) : List ℕ := fb.requests.map Prod.fst

def reqPoolIndices (fb : ForwardBatch) : List ℕ := fb.requests.map Prod.snd

/-- The batch with `seq_lens + i`. -/
def atStep (fb : ForwardBatch) (i : ℕ) : ForwardBatch :=
  { fb with requests := fb.requests.map fun q => (q.1 + i, q.2) }

end ForwardBatch

/-- `decode_cuda_graph_metadata[bs]`; its page table is that of the backend. -/
structure GraphMetadata where
  cacheSeqlensInt32 : List (BitVec 32)
  maxSeqLenK : ℕ
  cuSeqlensK : List (BitVec 32)

/-- What `forward_metadata` refers to. -/
inductive Held where
  | own (metadata : NSAMetadata)
  | graph (bs : ℕ)

/-- A backend: the page table that its graphs share, their metadata, and `forward_metadata`. -/
structure SubBackend where
  pageTable : ℕ → ℕ → BitVec 32
  graphs : ℕ → Option GraphMetadata
  forwardMetadata : Option Held

def SubBackend.init : SubBackend := ⟨fun _ _ => 0, fun _ => none, none⟩

/-- What the backend reads when its step runs. -/
def SubBackend.metadata (maxContextLen : ℕ) (b : SubBackend) : Option NSAMetadata :=
  match b.forwardMetadata with
  | none => none
  | some (.own metadata) => some metadata
  | some (.graph bs) =>
    (b.graphs bs).map fun g => ⟨g.cacheSeqlensInt32, g.maxSeqLenK, g.cuSeqlensK, ⟨maxContextLen, b.pageTable⟩⟩

/-! ## Preparing -/

/-- `torch.cumsum` of int32. -/
def cumsum (lens : List (BitVec 32)) : List (BitVec 32) := (lens.scanl (· + ·) 0).tail

/-- `dst.copy_(src)`: as many elements, or one for all. -/
def copyInto {α : Type} (dst src : List α) : Except String (List α) :=
  if src.length = dst.length then .ok src
  else
    match src with
    | [v] => .ok (List.replicate dst.length v)
    | _ => .error "The size of tensor a must match the size of tensor b"

/-- `page_table[:bs, :max_len].copy_(page_indices)`, on a table of `maxContextLen` columns. -/
def copyTable (maxContextLen bs maxLen : ℕ) (pageTable : ℕ → ℕ → BitVec 32) (pageIndices : Table) :
    Except String (ℕ → ℕ → BitVec 32) :=
  let cols := min maxLen maxContextLen
  if pageIndices.cols = cols then
    .ok fun r j => if r < bs ∧ j < cols then pageIndices.get r j else pageTable r j
  else if pageIndices.cols = 1 then
    .ok fun r j => if r < bs ∧ j < cols then pageIndices.get r 0 else pageTable r j
  else .error "The size of tensor a must match the size of tensor b"

section Prepare

variable (computeCuSeqlens : List (BitVec 32) → List (BitVec 32)) (maxContextLen : ℕ)

/-- `NativeSparseAttnBackend.init_forward_metadata`. -/
def initForwardMetadata (fb : ForwardBatch) (b : SubBackend) : Except String SubBackend :=
  let draftTokenNum := 0
  let cacheSeqlensInt32 := fb.seqLens.map fun s => BitVec.ofNat 32 (s + draftTokenNum)
  let cuSeqlensK := computeCuSeqlens cacheSeqlensInt32
  match fb.seqLens.max? with
  | none => .error "max(): Expected reduction dim to be specified for input.numel() == 0"
  | some longest =>
    let maxSeqlenK := longest + draftTokenNum
    .ok { b with
      forwardMetadata :=
        some (.own ⟨cacheSeqlensInt32, maxSeqlenK, cuSeqlensK, fb.pool.rows fb.reqPoolIndices maxSeqlenK⟩) }

/-- `NativeSparseAttnBackend.init_forward_metadata_capture_cuda_graph`: the page table is not filled. -/
def initForwardMetadataCaptureCudaGraph (bs : ℕ) (seqLens : List ℕ) (b : SubBackend) : SubBackend :=
  let cacheSeqlensInt32 := seqLens.map (BitVec.ofNat 32)
  let cuSeqlensK := computeCuSeqlens cacheSeqlensInt32
  let metadata : GraphMetadata := ⟨cacheSeqlensInt32, maxContextLen, cuSeqlensK⟩
  { b with graphs := Function.update b.graphs bs (some metadata), forwardMetadata := some (.graph bs) }

/-- `NativeSparseAttnBackend.init_forward_metadata_replay_cuda_graph`. -/
def initForwardMetadataReplayCudaGraph (bs : ℕ) (fb : ForwardBatch) (b : SubBackend) : Except String SubBackend :=
  let seqLens := fb.seqLens.take bs
  let reqPoolIndices := fb.reqPoolIndices.take bs
  match b.graphs bs with
  | none => .error "KeyError"
  | some metadata =>
    match seqLens.max? with
    | none => .error "max(): Expected reduction dim to be specified for input.numel() == 0"
    | some maxLen => do
      let cacheSeqlens := seqLens.map (BitVec.ofNat 32)
      let cacheSeqlensInt32 ← copyInto metadata.cacheSeqlensInt32 cacheSeqlens
      let cuSeqlensK ← copyInto metadata.cuSeqlensK.tail (cumsum cacheSeqlens)
      let pageTable ← copyTable maxContextLen bs maxLen b.pageTable (fb.pool.rows reqPoolIndices maxLen)
      let metadata := { metadata with cacheSeqlensInt32, cuSeqlensK := metadata.cuSeqlensK.take 1 ++ cuSeqlensK }
      return ⟨pageTable, Function.update b.graphs bs (some metadata), some (.graph bs)⟩

/-- The three ways to prepare. -/
inductive Path where
  | eager
  | capture
  | replay
deriving DecidableEq

/-- What each way does to backend `i`. -/
def prepareStep (path : Path) (fb : ForwardBatch) (i : ℕ) (b : SubBackend) : Except String SubBackend :=
  match path with
  | .eager => initForwardMetadata computeCuSeqlens fb b
  | .capture =>
    .ok (initForwardMetadataCaptureCudaGraph computeCuSeqlens maxContextLen fb.batchSize (fb.atStep i).seqLens b)
  | .replay => initForwardMetadataReplayCudaGraph maxContextLen fb.batchSize (fb.atStep i) b

/-- `NativeSparseAttnMultiStepBackend.init_forward_metadata` and its two siblings. -/
def prepare (speculativeNumSteps : ℕ) (path : Path) (fb : ForwardBatch) (backends : ℕ → SubBackend) :
    Except String (ℕ → SubBackend) :=
  (List.range (speculativeNumSteps - 1)).foldlM (fun backends i => do
    let b ← prepareStep computeCuSeqlens maxContextLen path fb i (backends i)
    return Function.update backends i b) backends

/-- The states after any preparations that went through, with the batch sizes captured so far. -/
inductive Reached (speculativeNumSteps : ℕ) : Set ℕ → (ℕ → SubBackend) → Prop where
  | init : Reached speculativeNumSteps ∅ fun _ => .init
  | step {captured : Set ℕ} {backends backends' : ℕ → SubBackend} {path : Path} {fb : ForwardBatch} :
      Reached speculativeNumSteps captured backends →
      prepare computeCuSeqlens maxContextLen speculativeNumSteps path fb backends = .ok backends' →
      Reached speculativeNumSteps (if path = .capture then insert fb.batchSize captured else captured) backends'

end Prepare

/-! ## What should be there -/

/-- The metadata describes `seq_lens + i` keys for each request: the lengths, their sums, and columns for all keys, with
the slots of the keys where the table is filled. -/
structure Describes (fb : ForwardBatch) (i : ℕ) (filled : Prop) (m : NSAMetadata) : Prop where
  cache : m.cacheSeqlensInt32 = fb.seqLens.map fun s => BitVec.ofNat 32 (s + i)
  cumulative : m.cuSeqlensK = (fb.seqLens.map fun s => BitVec.ofNat 32 (s + i)).scanl (· + ·) 0
  longest : ∀ s ∈ fb.seqLens, s + i ≤ m.maxSeqLenK
  columns : ∀ s ∈ fb.seqLens, s + i ≤ m.pageTable1.cols
  slots : filled → ∀ (r : ℕ) (q : ℕ × ℕ), fb.requests[r]? = some q → ∀ j < q.1 + i,
    j < fb.pool.width ∧ m.pageTable1.get r j = fb.pool.slot q.2 j

/-- The batch is prepared, and every step then has metadata that describes it. Only a capture leaves the page table
unfilled. -/
def Right (computeCuSeqlens : List (BitVec 32) → List (BitVec 32)) (maxContextLen speculativeNumSteps : ℕ) (path : Path)
    (fb : ForwardBatch) (backends : ℕ → SubBackend) : Prop :=
  ∃ backends', prepare computeCuSeqlens maxContextLen speculativeNumSteps path fb backends = .ok backends' ∧
    ∀ i < speculativeNumSteps - 1, ∃ m, (backends' i).metadata maxContextLen = some m ∧
      Describes fb i (path ≠ .capture) m

/-- The columns there are for the keys of a request. -/
def Path.limit (maxContextLen : ℕ) (pool : ReqToToken) : Path → ℕ
  | .eager => pool.width
  | .capture => maxContextLen
  | .replay => min pool.width maxContextLen

/-! ## One backend -/

theorem zero_cons_cumsum (lens : List (BitVec 32)) : 0 :: cumsum lens = lens.scanl (· + ·) 0 := by
  cases lens with
  | nil => rfl
  | cons l lens => simp [cumsum]

theorem length_cumsum (lens : List (BitVec 32)) : (cumsum lens).length = lens.length := by
  have hlen := congrArg List.length (zero_cons_cumsum lens)
  rw [List.length_cons, List.length_scanl] at hlen
  exact Nat.succ.inj hlen

theorem copyInto_of_length {α : Type} {dst src : List α} (h : src.length = dst.length) : copyInto dst src = .ok src :=
  if_pos h

section One

variable {computeCuSeqlens : List (BitVec 32) → List (BitVec 32)} {maxContextLen i : ℕ} {fb : ForwardBatch}
  {b b' : SubBackend}

theorem mem_seqLens {s : ℕ} : s ∈ fb.seqLens ↔ ∃ q ∈ fb.requests, q.1 = s := List.mem_map

theorem seqLens_atStep : (fb.atStep i).seqLens = fb.seqLens.map (· + i) := by
  simp only [ForwardBatch.seqLens, ForwardBatch.atStep, List.map_map]
  rfl

theorem reqPoolIndices_atStep : (fb.atStep i).reqPoolIndices = fb.reqPoolIndices := by
  simp only [ForwardBatch.reqPoolIndices, ForwardBatch.atStep, List.map_map]
  rfl

/-- The lengths of step `i` as the kernels get them. -/
theorem map_ofNat_seqLens_atStep :
    (fb.atStep i).seqLens.map (BitVec.ofNat 32) = fb.seqLens.map fun s => BitVec.ofNat 32 (s + i) := by
  rw [seqLens_atStep, List.map_map]
  rfl

theorem take_seqLens_atStep : (fb.atStep i).seqLens.take fb.batchSize = (fb.atStep i).seqLens := by
  rw [List.take_of_length_le]
  rw [seqLens_atStep, List.length_map]
  exact (List.length_map ..).le

theorem take_reqPoolIndices_atStep : (fb.atStep i).reqPoolIndices.take fb.batchSize = fb.reqPoolIndices := by
  rw [reqPoolIndices_atStep, List.take_of_length_le]
  exact (List.length_map ..).le

theorem seqLens_eq_nil : fb.seqLens = [] ↔ fb.requests = [] := List.map_eq_nil_iff

theorem reqPoolIndices_getD {r : ℕ} {q : ℕ × ℕ} (hq : fb.requests[r]? = some q) : fb.reqPoolIndices.getD r 0 = q.2 := by
  rw [List.getD_eq_getElem?_getD, ForwardBatch.reqPoolIndices, List.getElem?_map, hq]
  rfl

variable (computeCuSeqlens maxContextLen) in
/-- Backend `i` is prepared and then has what its step should have. -/
def StepRight (path : Path) (fb : ForwardBatch) (i : ℕ) (b : SubBackend) : Prop :=
  ∃ b', prepareStep computeCuSeqlens maxContextLen path fb i b = .ok b' ∧
    ∃ m, b'.metadata maxContextLen = some m ∧ Describes fb i (path ≠ .capture) m

/-- **Eagerly** only step 0 gets what it should: every step gets the lengths of step 0. -/
theorem eager_describes_iff (hcu : ∀ lens, computeCuSeqlens lens = 0 :: cumsum lens) :
    StepRight computeCuSeqlens maxContextLen .eager fb i b ↔
      fb.requests ≠ [] ∧ (∀ s ∈ fb.seqLens, s ≤ fb.pool.width) ∧ i = 0 := by
  unfold StepRight prepareStep initForwardMetadata
  cases hmax : fb.seqLens.max? with
  | none =>
    have hnil := seqLens_eq_nil.mp (List.max?_eq_none_iff.mp hmax)
    constructor
    · rintro ⟨b', hb', -⟩
      cases hb'
    · rintro ⟨hne, -⟩
      exact absurd hnil hne
  | some longest =>
    obtain ⟨hmem, hle⟩ := List.max?_eq_some_iff.mp hmax
    have hne : fb.requests ≠ [] := by
      intro hnil
      rw [seqLens_eq_nil.mpr hnil] at hmem
      exact List.not_mem_nil hmem
    simp only [Except.ok.injEq, exists_eq_left', SubBackend.metadata, Option.some.injEq]
    constructor
    · intro hdesc
      have hlongest := hdesc.longest longest hmem
      have hi : i = 0 := by
        simp only at hlongest
        omega
      refine ⟨hne, fun s hs => ?_, hi⟩
      have hcols : s + i ≤ min (longest + 0) fb.pool.width := hdesc.columns s hs
      omega
    · rintro ⟨-, hfit, rfl⟩
      refine ⟨rfl, ?_, fun s hs => hle s hs, fun s hs => ?_, fun _ r q hq j hj => ?_⟩
      · rw [hcu, zero_cons_cumsum]
      · exact le_min (hle s hs) (hfit s hs)
      · have hs : q.1 ∈ fb.seqLens := mem_seqLens.mpr ⟨q, List.mem_of_getElem? hq, rfl⟩
        refine ⟨Nat.lt_of_lt_of_le hj (hfit _ hs), ?_⟩
        show fb.pool.slot (fb.reqPoolIndices.getD r 0) j = _
        rw [reqPoolIndices_getD hq]

/-- **At capture** each step gets its lengths, and as many columns as there are. -/
theorem capture_describes_iff (hcu : ∀ lens, computeCuSeqlens lens = 0 :: cumsum lens) :
    StepRight computeCuSeqlens maxContextLen .capture fb i b ↔ ∀ s ∈ fb.seqLens, s + i ≤ maxContextLen := by
  unfold StepRight prepareStep initForwardMetadataCaptureCudaGraph
  simp only [Except.ok.injEq, exists_eq_left', SubBackend.metadata, Function.update_self, Option.map_some,
    Option.some.injEq]
  constructor
  · intro hdesc s hs
    exact hdesc.columns s hs
  · intro hfit
    refine ⟨map_ofNat_seqLens_atStep, ?_, hfit, hfit, fun hfilled => absurd rfl hfilled⟩
    show computeCuSeqlens ((fb.atStep i).seqLens.map (BitVec.ofNat 32)) = _
    rw [hcu, zero_cons_cumsum, map_ofNat_seqLens_atStep]

/-- The metadata of a graph has the sizes of its batch. -/
structure GraphMetadata.Shaped (maxContextLen bs : ℕ) (g : GraphMetadata) : Prop where
  cache : g.cacheSeqlensInt32.length = bs
  cumulative : g.cuSeqlensK.length = bs + 1
  first : g.cuSeqlensK.take 1 = [0]
  longest : g.maxSeqLenK = maxContextLen

namespace GraphMetadata.Shaped

variable {bs : ℕ} {g : GraphMetadata} {lens : List (BitVec 32)}

/-- Lengths of the batch fill the buffer of the graph. -/
theorem copy_cache (hg : g.Shaped maxContextLen bs) (hlens : lens.length = bs) :
    copyInto g.cacheSeqlensInt32 lens = .ok lens :=
  copyInto_of_length (hlens.trans hg.cache.symm)

/-- So do their sums the buffer behind its zero. -/
theorem copy_cumulative (hg : g.Shaped maxContextLen bs) (hlens : lens.length = bs) :
    copyInto g.cuSeqlensK.tail (cumsum lens) = .ok (cumsum lens) := by
  refine copyInto_of_length ?_
  rw [length_cumsum, hlens, List.length_tail, hg.cumulative, Nat.add_sub_cancel]

theorem take_append_cumsum (hg : g.Shaped maxContextLen bs) :
    g.cuSeqlensK.take 1 ++ cumsum lens = lens.scanl (· + ·) 0 := by
  rw [hg.first, List.singleton_append, zero_cons_cumsum]

end GraphMetadata.Shaped

/-- What a replay does with a graph of the right sizes. -/
theorem replay_ok_iff {g : GraphMetadata} (hg : b.graphs fb.batchSize = some g)
    (hshaped : g.Shaped maxContextLen fb.batchSize) :
    initForwardMetadataReplayCudaGraph maxContextLen fb.batchSize (fb.atStep i) b = .ok b' ↔
      ∃ longest, (fb.atStep i).seqLens.max? = some longest ∧
      ∃ pageTable, copyTable maxContextLen fb.batchSize longest b.pageTable
        (fb.pool.rows fb.reqPoolIndices longest) = .ok pageTable ∧
      b' = ⟨pageTable, Function.update b.graphs fb.batchSize (some { g with
        cacheSeqlensInt32 := fb.seqLens.map fun s => BitVec.ofNat 32 (s + i)
        cuSeqlensK := (fb.seqLens.map fun s => BitVec.ofNat 32 (s + i)).scanl (· + ·) 0 }),
        some (.graph fb.batchSize)⟩ := by
  have hlength : (fb.seqLens.map fun s => BitVec.ofNat 32 (s + i)).length = fb.batchSize := by
    rw [List.length_map]
    exact List.length_map ..
  have hpool : (fb.atStep i).pool = fb.pool := rfl
  unfold initForwardMetadataReplayCudaGraph
  simp only [hg, take_seqLens_atStep, take_reqPoolIndices_atStep, map_ofNat_seqLens_atStep,
    hshaped.copy_cache hlength, hshaped.copy_cumulative hlength, hpool]
  cases (fb.atStep i).seqLens.max? with
  | none =>
    constructor
    · rintro h
      cases h
    · rintro ⟨_, h, -⟩
      cases h
  | some longest =>
    simp only [bind, Except.bind, hshaped.take_append_cumsum]
    cases hcopy : copyTable maxContextLen fb.batchSize longest b.pageTable (fb.pool.rows fb.reqPoolIndices longest) with
    | error msg =>
      constructor
      · rintro h
        cases h
      · rintro ⟨_, hl, _, h, -⟩
        obtain rfl := Option.some.inj hl
        cases hcopy.symm.trans h
    | ok pageTable =>
      constructor
      · rintro h
        exact ⟨longest, rfl, pageTable, hcopy, (Except.ok.inj h).symm⟩
      · rintro ⟨_, hl, _, h, rfl⟩
        obtain rfl := Option.some.inj hl
        obtain rfl := Except.ok.inj (hcopy.symm.trans h)
        rfl

/-- **At replay** each step gets its lengths and the slots of its keys, where the tables have room for them. -/
theorem replay_describes_iff {g : GraphMetadata} (hg : b.graphs fb.batchSize = some g)
    (hshaped : g.Shaped maxContextLen fb.batchSize) :
    StepRight computeCuSeqlens maxContextLen .replay fb i b ↔
      fb.requests ≠ [] ∧ ∀ s ∈ fb.seqLens, s + i ≤ min fb.pool.width maxContextLen := by
  unfold StepRight prepareStep
  simp only [replay_ok_iff hg hshaped]
  constructor
  · rintro ⟨b', ⟨longest, hmax, pageTable, -, rfl⟩, m, hm, hdesc⟩
    simp only [SubBackend.metadata, Function.update_self, Option.map_some, Option.some.injEq] at hm
    subst hm
    refine ⟨fun hnil => ?_, fun s hs => ?_⟩
    · rw [seqLens_atStep, seqLens_eq_nil.mpr hnil] at hmax
      cases hmax
    · obtain ⟨q, hq, rfl⟩ := mem_seqLens.mp hs
      obtain ⟨r, hr⟩ := List.mem_iff_getElem?.mp hq
      have hslots := hdesc.slots (by decide) r q hr
      have hwidth : q.1 + i ≤ fb.pool.width := by
        by_contra hlt
        exact Nat.lt_irrefl _ (hslots fb.pool.width (Nat.lt_of_not_le hlt)).1
      exact le_min hwidth (hdesc.columns _ hs)
  · rintro ⟨hne, hfit⟩
    have hsome : (fb.atStep i).seqLens ≠ [] := by
      rw [seqLens_atStep]
      exact fun hnil => hne (seqLens_eq_nil.mp (List.map_eq_nil_iff.mp hnil))
    obtain ⟨longest, hmax⟩ := Option.isSome_iff_exists.mp (List.isSome_max?_of_ne_nil hsome)
    obtain ⟨hmem, hle⟩ := List.max?_eq_some_iff.mp hmax
    rw [seqLens_atStep] at hmem hle
    obtain ⟨s, hs, rfl⟩ := List.mem_map.mp hmem
    have hlongest := hfit s hs
    have hcols : (fb.pool.rows fb.reqPoolIndices (s + i)).cols = min (s + i) maxContextLen := by
      show min (s + i) fb.pool.width = _
      omega
    refine ⟨_, ⟨s + i, hmax, _, if_pos hcols, rfl⟩, ?_⟩
    simp only [SubBackend.metadata, Function.update_self, Option.map_some, Option.some.injEq, exists_eq_left']
    refine ⟨rfl, rfl, fun s' hs' => ?_, fun s' hs' => (hfit s' hs').trans (min_le_right _ _), fun _ r q hq j hj => ?_⟩
    · rw [hshaped.longest]
      exact (hfit s' hs').trans (min_le_right _ _)
    · have hs' : q.1 ∈ fb.seqLens := mem_seqLens.mpr ⟨q, List.mem_of_getElem? hq, rfl⟩
      have hq' := hle (q.1 + i) (List.mem_map_of_mem hs')
      have hroom := hfit q.1 hs'
      have hr : r < fb.batchSize := (List.getElem?_eq_some_iff.mp hq).1
      refine ⟨by omega, ?_⟩
      show (if r < fb.batchSize ∧ j < min (s + i) maxContextLen then fb.pool.slot (fb.reqPoolIndices.getD r 0) j else _) =
        _
      rw [if_pos ⟨hr, by omega⟩, reqPoolIndices_getD hq]

end One

/-! ## All backends -/

section All

variable {computeCuSeqlens : List (BitVec 32) → List (BitVec 32)} {maxContextLen speculativeNumSteps : ℕ} {path : Path}
  {fb : ForwardBatch} {backends backends' : ℕ → SubBackend} {captured : Set ℕ}

/-- Preparing all steps is preparing each. -/
theorem prepare_ok_iff : prepare computeCuSeqlens maxContextLen speculativeNumSteps path fb backends = .ok backends' ↔
    (∀ i < speculativeNumSteps - 1, prepareStep computeCuSeqlens maxContextLen path fb i (backends i) =
      .ok (backends' i)) ∧ ∀ i, speculativeNumSteps - 1 ≤ i → backends' i = backends i := by
  unfold prepare
  rw [foldlM_update_ok List.nodup_range]
  simp only [List.mem_range, not_lt]

theorem right_iff_steps : Right computeCuSeqlens maxContextLen speculativeNumSteps path fb backends ↔
    ∀ i < speculativeNumSteps - 1, StepRight computeCuSeqlens maxContextLen path fb i (backends i) := by
  constructor
  · rintro ⟨backends', hok, hdesc⟩ i hi
    exact ⟨backends' i, (prepare_ok_iff.mp hok).1 i hi, hdesc i hi⟩
  · intro h
    choose b' hb' using h
    refine ⟨fun i => if hi : i < speculativeNumSteps - 1 then b' i hi else backends i,
      prepare_ok_iff.mpr ⟨fun i hi => ?_, fun i hi => ?_⟩, fun i hi => ?_⟩
    · rw [dif_pos hi]
      exact (hb' i hi).1
    · exact dif_neg (Nat.not_lt_of_le hi)
    · dsimp only
      rw [dif_pos hi]
      exact (hb' i hi).2

/-- Every graph has the sizes of its batch, and every size that was captured has one. -/
structure Graphs (maxContextLen : ℕ) (captured : Set ℕ) (b : SubBackend) : Prop where
  shaped : ∀ bs g, b.graphs bs = some g → g.Shaped maxContextLen bs
  there : ∀ bs ∈ captured, (b.graphs bs).isSome

theorem Graphs.update {b : SubBackend} (h : Graphs maxContextLen captured b) {bs : ℕ} {g : GraphMetadata}
    (hg : g.Shaped maxContextLen bs) (pageTable : ℕ → ℕ → BitVec 32) (held : Option Held) :
    Graphs maxContextLen (insert bs captured) ⟨pageTable, Function.update b.graphs bs (some g), held⟩ where
  shaped bs' g' hg' := by
    have hg' : Function.update b.graphs bs (some g) bs' = some g' := hg'
    by_cases heq : bs' = bs
    · subst heq
      rw [Function.update_self] at hg'
      exact Option.some.inj hg' ▸ hg
    · rw [Function.update_of_ne heq] at hg'
      exact h.shaped bs' g' hg'
  there bs' hbs' := by
    show (Function.update b.graphs bs (some g) bs').isSome
    by_cases heq : bs' = bs
    · subst heq
      rw [Function.update_self]
      rfl
    · rw [Function.update_of_ne heq]
      exact h.there bs' (hbs'.resolve_left heq)

/-- Each way to prepare keeps the graphs of a backend in shape. -/
theorem Graphs.prepareStep (hcu : ∀ lens, computeCuSeqlens lens = 0 :: cumsum lens) {i : ℕ} {b b' : SubBackend}
    (h : Graphs maxContextLen captured b) (hok : prepareStep computeCuSeqlens maxContextLen path fb i b = .ok b') :
    Graphs maxContextLen (if path = .capture then insert fb.batchSize captured else captured) b' := by
  have hlength : ((fb.atStep i).seqLens.map (BitVec.ofNat 32)).length = fb.batchSize := by
    rw [List.length_map, seqLens_atStep, List.length_map]
    exact List.length_map ..
  cases path with
  | eager =>
    unfold DraftSteps.prepareStep initForwardMetadata at hok
    cases hmax : fb.seqLens.max? with
    | none =>
      rw [hmax] at hok
      cases hok
    | some longest =>
      rw [hmax] at hok
      rw [← Except.ok.inj hok]
      exact ⟨h.shaped, h.there⟩
  | capture =>
    rw [← Except.ok.inj hok]
    refine h.update ⟨hlength, ?_, ?_, rfl⟩ b.pageTable _
    · show (computeCuSeqlens ((fb.atStep i).seqLens.map (BitVec.ofNat 32))).length = _
      rw [hcu, List.length_cons, length_cumsum, hlength]
    · show (computeCuSeqlens ((fb.atStep i).seqLens.map (BitVec.ofNat 32))).take 1 = _
      rw [hcu]
      rfl
  | replay =>
    cases hg : b.graphs fb.batchSize with
    | none =>
      unfold DraftSteps.prepareStep initForwardMetadataReplayCudaGraph at hok
      rw [hg] at hok
      cases hok
    | some g =>
      have hshaped := h.shaped _ _ hg
      obtain ⟨longest, -, pageTable, -, rfl⟩ := (replay_ok_iff hg hshaped).mp hok
      have hreplayed : GraphMetadata.Shaped maxContextLen fb.batchSize { g with
          cacheSeqlensInt32 := fb.seqLens.map fun s => BitVec.ofNat 32 (s + i)
          cuSeqlensK := (fb.seqLens.map fun s => BitVec.ofNat 32 (s + i)).scanl (· + ·) 0 } :=
        ⟨by simp [ForwardBatch.seqLens, ForwardBatch.batchSize],
          by simp [ForwardBatch.seqLens, ForwardBatch.batchSize],
          by rw [← zero_cons_cumsum]; rfl, hshaped.longest⟩
      have hupdate := h.update hreplayed pageTable (some (.graph fb.batchSize))
      exact ⟨hupdate.shaped, fun bs hbs => hupdate.there bs (Set.mem_insert_of_mem _ hbs)⟩

theorem Reached.graphs (hcu : ∀ lens, computeCuSeqlens lens = 0 :: cumsum lens)
    (h : Reached computeCuSeqlens maxContextLen speculativeNumSteps captured backends) :
    ∀ i < speculativeNumSteps - 1, Graphs maxContextLen captured (backends i) := by
  induction h with
  | init =>
    intro i _
    refine ⟨fun bs g hg => ?_, fun bs hbs => absurd hbs (Set.notMem_empty bs)⟩
    cases hg
  | step _ hok ih => exact fun i hi => (ih i hi).prepareStep hcu ((prepare_ok_iff.mp hok).1 i hi)

/-- All steps fit when the last does. -/
theorem forall_steps_iff {s n limit : ℕ} (hn : 0 < n) : (∀ i < n, s + i ≤ limit) ↔ s + (n - 1) ≤ limit := by
  constructor
  · intro h
    exact h (n - 1) (by omega)
  · intro h i hi
    omega

/-- **Draft steps.** In every state reached, the metadata of every step describes the keys of that step when there is
one draft backend at most, or the metadata is prepared at capture or replay and the tables have room for the keys of the
last step; eagerly, never with two backends or more. -/
theorem draftSteps_iff (hcu : ∀ lens, computeCuSeqlens lens = 0 :: cumsum lens)
    (hreached : Reached computeCuSeqlens maxContextLen speculativeNumSteps captured backends)
    (hcaptured : path = .replay → fb.batchSize ∈ captured) :
    Right computeCuSeqlens maxContextLen speculativeNumSteps path fb backends ↔
      speculativeNumSteps ≤ 1 ∨ (path ≠ .capture → fb.requests ≠ []) ∧
        (∀ s ∈ fb.seqLens, s + (speculativeNumSteps - 2) ≤ path.limit maxContextLen fb.pool) ∧
        (path = .eager → speculativeNumSteps = 2) := by
  rw [right_iff_steps]
  by_cases hsteps : speculativeNumSteps ≤ 1
  · exact ⟨fun _ => .inl hsteps, fun _ i hi => by omega⟩
  have hlast : speculativeNumSteps - 2 = speculativeNumSteps - 1 - 1 := by omega
  have hpos : 0 < speculativeNumSteps - 1 := by omega
  rw [or_iff_right hsteps, hlast]
  cases path with
  | eager =>
    simp only [eager_describes_iff hcu, Path.limit, ne_eq, reduceCtorEq, not_false_eq_true, forall_const]
    constructor
    · intro h
      obtain ⟨hne, hfit, -⟩ := h 0 hpos
      have hone : speculativeNumSteps - 1 - 1 = 0 := (h _ (by omega)).2.2
      refine ⟨hne, fun s hs => ?_, by omega⟩
      rw [hone]
      exact hfit s hs
    · rintro ⟨hne, hfit, htwo⟩ i hi
      exact ⟨hne, fun s hs => (Nat.le_add_right _ _).trans (hfit s hs), by omega⟩
  | capture =>
    simp only [capture_describes_iff hcu, Path.limit, ne_eq, not_true_eq_false, false_implies, reduceCtorEq, true_and,
      and_true]
    constructor
    · exact fun h s hs => (forall_steps_iff hpos).mp fun i hi => h i hi s hs
    · exact fun h i hi s hs => (forall_steps_iff hpos).mpr (h s hs) i hi
  | replay =>
    have hstep : ∀ i < speculativeNumSteps - 1, (StepRight computeCuSeqlens maxContextLen .replay fb i (backends i) ↔
        fb.requests ≠ [] ∧ ∀ s ∈ fb.seqLens, s + i ≤ min fb.pool.width maxContextLen) := by
      intro i hi
      have hgraphs := hreached.graphs hcu i hi
      obtain ⟨g, hg⟩ := Option.isSome_iff_exists.mp (hgraphs.there _ (hcaptured rfl))
      exact replay_describes_iff hg (hgraphs.shaped _ _ hg)
    simp only [Path.limit, ne_eq, reduceCtorEq, not_false_eq_true, forall_const, false_implies, and_true]
    constructor
    · intro h
      have hall := fun i hi => (hstep i hi).mp (h i hi)
      exact ⟨(hall 0 hpos).1, fun s hs => (forall_steps_iff hpos).mp fun i hi => (hall i hi).2 s hs⟩
    · rintro ⟨hne, hfit⟩ i hi
      exact (hstep i hi).mpr ⟨hne, fun s hs => (forall_steps_iff hpos).mpr (hfit s hs) i hi⟩

end All

/-! ## Three steps -/

/-- Two requests of 5 and 3 tokens. -/
def twoRequests : ForwardBatch := ⟨[(5, 0), (3, 1)], ⟨16, fun r j => BitVec.ofNat 32 (16 * r + j)⟩⟩

def cuSeqlens (lens : List (BitVec 32)) : List (BitVec 32) := 0 :: cumsum lens

/-- A capture of three steps for two requests. -/
theorem reached_capture : ∃ backends, Reached cuSeqlens 16 3 (insert twoRequests.batchSize ∅) backends := by
  obtain ⟨backends, hok, -⟩ : Right cuSeqlens 16 3 .capture twoRequests fun _ => .init :=
    right_iff_steps.mpr fun i hi => (capture_describes_iff fun _ => rfl).mpr fun s hs => by
      have hs : s ∈ [5, 3] := hs
      simp only [List.mem_cons, List.not_mem_nil, or_false] at hs
      omega
  exact ⟨backends, Reached.init.step hok⟩

/-- A replay after it describes both steps. -/
theorem draftSteps_iff_replay :
    ∃ backends, Reached cuSeqlens 16 3 (insert twoRequests.batchSize ∅) backends ∧
      Right cuSeqlens 16 3 .replay twoRequests backends := by
  obtain ⟨backends, hreached⟩ := reached_capture
  exact ⟨backends, hreached, (draftSteps_iff (fun _ => rfl) hreached fun _ => Set.mem_insert _ _).mpr
    (.inr ⟨by decide, by decide, by decide⟩)⟩

/-- The same batch prepared eagerly: step 1 has the lengths of step 0, one key short for either request. -/
theorem eager_step_one : ¬ Right cuSeqlens 16 3 .eager twoRequests (fun _ => .init) ∧
    ∃ backends', prepare cuSeqlens 16 3 .eager twoRequests (fun _ => .init) = .ok backends' ∧
      ∃ m, (backends' 1).metadata 16 = some m ∧ m.cacheSeqlensInt32 = [5, 3] ∧ m.cuSeqlensK = [0, 5, 8] ∧
        m.pageTable1.cols = 5 := by
  refine ⟨fun hright => ?_, ?_⟩
  · have hone := right_iff_steps.mp hright 1 (by decide)
    exact absurd ((eager_describes_iff fun _ => rfl).mp hone).2.2 (by decide)
  · obtain ⟨b, hb⟩ : ∃ b, initForwardMetadata cuSeqlens twoRequests .init = .ok b := ⟨_, rfl⟩
    refine ⟨fun i => if i < 2 then b else .init, prepare_ok_iff.mpr ⟨fun i hi => ?_, fun i hi => ?_⟩, ?_⟩
    · have hi : i < 2 := hi
      rw [if_pos hi]
      exact hb
    · have hi : 2 ≤ i := hi
      exact if_neg (by omega)
    · obtain rfl := Except.ok.inj hb
      exact ⟨_, rfl, by decide, by decide, rfl⟩

end ExpertServe.DraftSteps
