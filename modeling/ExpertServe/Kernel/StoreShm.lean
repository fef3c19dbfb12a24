import Mathlib.Data.List.MinMax
import ExpertServe.Kernel.Promote

/-!
# The expert store in shared memory

Under `KT_STORE_SHM` a partition takes its buffers out of one named segment, so that another process can map them. The
owner hands out offsets, the reader adds its own base, pins one span for each expert it may need and fills the pointer
table of the gather kernels.

* `ExpertStoreShm.take`, `initStore`: the bump allocator and the loop of the constructor;
* `initStore_eq`: the segment is never exhausted, and where its buffers are; `shmExtents`: they are `Extents`;
* `buildPointerTableShm`, `pfBuildTable`: the reader; `pinnedPages_apart`: no page is pinned for two experts;
* `ownPartitions_cover_iff`: when every partition has its rank;
* `pfBuildTable_reads`: what the table of any rank reads of an expert that is staged is its slice.
-/

namespace ExpertServe.PackedInt4

open Lib

/-! ## The segment -/

/-- `base` is where the owner has mapped the segment; there is none if it was never created. -/
structure ExpertStoreShm where
  name : String
  base : Option ℕ
  size : ℕ
  cursor : ℕ
  lastOffset : ℕ

namespace ExpertStoreShm

/-- `make_name`. -/
def makeName (pid layerIdx tpPart : ℕ) : String := s!"/ktstore_{pid}_l{layerIdx}_t{tpPart}"

/-- `create`, once `shm_open`, `ftruncate` and `mmap` have succeeded, and `mmap` has returned `base`. -/
def create (name : String) (base bytes : ℕ) : ExpertStoreShm := ⟨name, some base, bytes, 0, 0⟩

/-- `take`: the next multiple of `page`. -/
def take (s : ExpertStoreShm) (bytes page : ℕ) : Except String (Option ℕ × ExpertStoreShm) :=
  match s.base with
  | none => .ok (none, s)
  | some base =>
    let off := (s.cursor + page - 1) / page * page
    if off + bytes > s.size then .error ("expert store shm exhausted: " ++ s.name)
    else .ok (some (base + off), { s with cursor := off + bytes, lastOffset := off })

end ExpertStoreShm

/-! ## The constructor -/

/-- What the constructor of a partition fills: `expert_shm_offsets_`, and the addresses of the buffers. -/
structure StoreInit where
  shm : ExpertStoreShm
  offsets : List ℕ
  ptrs : List ℕ

/-- The size of the segment. -/
def shmTotal (tpc : GeneralMOEConfig) : ℕ :=
  let gateUpB := pageRoundUp (requiredSize tpc.intermediateSize tpc.hiddenSize tpc.groupSize)
  let downB := pageRoundUp (requiredSize tpc.hiddenSize tpc.intermediateSize tpc.groupSize)
  tpc.expertNum * (2 * gateUpB + downB) + pageSize

/-- One buffer: out of the segment, or from `aligned_alloc` if there is none. -/
def initBuffer (tpc : GeneralMOEConfig) (alignedAlloc : ℕ × Proj → ℕ) (s : StoreInit) (k : ℕ × Proj) :
    Except String StoreInit := do
  let (ptr, shm) ← s.shm.take (k.2.extentBytes tpc) pageSize
  let s := match ptr with
    | some ptr => ⟨shm, s.offsets ++ [shm.lastOffset], s.ptrs ++ [ptr]⟩
    | none => ⟨shm, s.offsets, s.ptrs ++ [alignedAlloc k]⟩
  GeneralMOEConfig.bufferB (k.2.rowWeights tpc) tpc.groupSize
  return s

/-- The buffers in the order of the loop. -/
def bufferOrder (tpc : GeneralMOEConfig) : List (ℕ × Proj) :=
  (List.range tpc.expertNum).flatMap fun e => [(e, .gate), (e, .up), (e, .down)]

def initStore (tpc : GeneralMOEConfig) (shm : ExpertStoreShm) (alignedAlloc : ℕ × Proj → ℕ) :
    Except String StoreInit :=
  (bufferOrder tpc).foldlM (initBuffer tpc alignedAlloc) ⟨shm, [], []⟩

/-! ## Where the buffers are -/

/-- The bytes of an expert. -/
def expertExtent (tpc : GeneralMOEConfig) : ℕ := 2 * Proj.gate.extentBytes tpc + Proj.down.extentBytes tpc

/-- Where a buffer starts in the segment. -/
def shmOffset (tpc : GeneralMOEConfig) (k : ℕ × Proj) : ℕ :=
  k.1 * expertExtent tpc +
    match k.2 with
    | .gate => 0
    | .up => Proj.gate.extentBytes tpc
    | .down => 2 * Proj.gate.extentBytes tpc

section Offsets

variable {tpc : GeneralMOEConfig}

theorem pageSize_dvd_pageRoundUp (n : ℕ) : pageSize ∣ pageRoundUp n := Dvd.intro_left _ rfl

theorem extentBytes_up : Proj.up.extentBytes tpc = Proj.gate.extentBytes tpc := rfl

theorem pageSize_dvd_shmOffset (k : ℕ × Proj) : pageSize ∣ shmOffset tpc k := by
  have hgate : pageSize ∣ Proj.gate.extentBytes tpc := pageSize_dvd_pageRoundUp _
  have hdown : pageSize ∣ Proj.down.extentBytes tpc := pageSize_dvd_pageRoundUp _
  apply Dvd.dvd.add
  · exact ((hgate.mul_left 2).add hdown).mul_left k.1
  · cases k.2 with
    | gate => exact dvd_zero _
    | up => exact hgate
    | down => exact hgate.mul_left 2

theorem shmTotal_eq : shmTotal tpc = tpc.expertNum * expertExtent tpc + pageSize := rfl

/-- Taking at a page boundary takes there. -/
theorem take_aligned {s : ExpertStoreShm} {base bytes : ℕ} (hbase : s.base = some base) (hcursor : pageSize ∣ s.cursor)
    (hfit : s.cursor + bytes ≤ s.size) :
    s.take bytes pageSize =
      .ok (some (base + s.cursor), { s with cursor := s.cursor + bytes, lastOffset := s.cursor }) := by
  have hoff : (s.cursor + pageSize - 1) / pageSize * pageSize = s.cursor := by
    obtain ⟨c, hc⟩ := hcursor
    rw [hc]
    unfold pageSize
    omega
  unfold ExpertStoreShm.take
  simp only [hbase, hoff, if_neg (not_lt.2 hfit)]

/-- The partition after the buffers `l`, the next of which starts at `cursor`. -/
def StoreInit.after (tpc : GeneralMOEConfig) (name : String) (base cursor : ℕ) (l : List (ℕ × Proj)) : StoreInit where
  shm := ⟨name, some base, shmTotal tpc, cursor, (l.map (shmOffset tpc)).getLastD 0⟩
  offsets := l.map (shmOffset tpc)
  ptrs := l.map fun k => base + shmOffset tpc k

variable {name : String} {base : ℕ} {alignedAlloc : ℕ × Proj → ℕ} {l : List (ℕ × Proj)}

/-- A buffer that is next in the segment. -/
theorem initBuffer_after {k : ℕ × Proj} (hfit : shmOffset tpc k + k.2.extentBytes tpc ≤ shmTotal tpc) :
    initBuffer tpc alignedAlloc (.after tpc name base (shmOffset tpc k) l) k = (do
      GeneralMOEConfig.bufferB (k.2.rowWeights tpc) tpc.groupSize
      return .after tpc name base (shmOffset tpc k + k.2.extentBytes tpc) (l ++ [k])) := by
  unfold initBuffer
  rw [take_aligned (s := (StoreInit.after tpc name base (shmOffset tpc k) l).shm) rfl (pageSize_dvd_shmOffset k) hfit]
  simp [StoreInit.after]
  rfl

theorem expert_le {e : ℕ} (he : e < tpc.expertNum) : (e + 1) * expertExtent tpc ≤ shmTotal tpc :=
  (Nat.mul_le_mul_right _ he).trans (Nat.le_add_right ..)

/-- The three buffers of an expert. -/
theorem initExpert {e : ℕ} (he : e < tpc.expertNum) :
    [(e, Proj.gate), (e, .up), (e, .down)].foldlM (initBuffer tpc alignedAlloc)
        (.after tpc name base (e * expertExtent tpc) l) = (do
      GeneralMOEConfig.bufferB tpc.hiddenSize tpc.groupSize
      GeneralMOEConfig.bufferB tpc.intermediateSize tpc.groupSize
      return .after tpc name base ((e + 1) * expertExtent tpc) (l ++ [(e, .gate), (e, .up), (e, .down)])) := by
  have hle := expert_le he
  rw [Nat.succ_mul] at hle ⊢
  have hup : shmOffset tpc (e, .gate) + Proj.gate.extentBytes tpc = shmOffset tpc (e, .up) := rfl
  have hdown : shmOffset tpc (e, .up) + Proj.up.extentBytes tpc = shmOffset tpc (e, .down) := by
    rw [extentBytes_up]
    simp only [shmOffset]
    omega
  have hnext : shmOffset tpc (e, .down) + Proj.down.extentBytes tpc = e * expertExtent tpc + expertExtent tpc := by
    simp only [shmOffset, expertExtent]
    omega
  have hgate : initBuffer tpc alignedAlloc (.after tpc name base (e * expertExtent tpc) l) (e, .gate) = _ :=
    initBuffer_after (k := (e, .gate)) (by simp only; omega)
  rw [List.foldlM_cons, hgate]
  simp only [Proj.rowWeights]
  cases hhidden : GeneralMOEConfig.bufferB tpc.hiddenSize tpc.groupSize with
  | error msg => rfl
  | ok _ =>
    simp only [bind, Except.bind, pure, Except.pure]
    rw [List.foldlM_cons, hup, initBuffer_after (k := (e, .up)) (by simp only; omega)]
    simp only [Proj.rowWeights, hhidden, bind, Except.bind, pure, Except.pure]
    rw [List.foldlM_cons, hdown, initBuffer_after (k := (e, .down)) (by simp only; omega)]
    simp only [Proj.rowWeights, hnext]
    cases GeneralMOEConfig.bufferB tpc.intermediateSize tpc.groupSize with
    | error msg => rfl
    | ok _ => simp [bind, Except.bind, pure, Except.pure]

/-- The buffers of the first `n` experts. -/
def firstBuffers (n : ℕ) : List (ℕ × Proj) := (List.range n).flatMap fun e => [(e, .gate), (e, .up), (e, .down)]

theorem firstBuffers_succ (n : ℕ) : firstBuffers (n + 1) = firstBuffers n ++ [(n, .gate), (n, .up), (n, .down)] := by
  simp [firstBuffers, List.range_succ]

theorem initStore_first (hhidden : GeneralMOEConfig.bufferB tpc.hiddenSize tpc.groupSize = .ok ())
    (hinter : GeneralMOEConfig.bufferB tpc.intermediateSize tpc.groupSize = .ok ()) {n : ℕ} (hn : n ≤ tpc.expertNum) :
    (firstBuffers n).foldlM (initBuffer tpc alignedAlloc) ⟨.create name base (shmTotal tpc), [], []⟩ =
      .ok (.after tpc name base (n * expertExtent tpc) (firstBuffers n)) := by
  induction n with
  | zero =>
    rw [Nat.zero_mul]
    rfl
  | succ n ih =>
    rw [firstBuffers_succ, List.foldlM_append, ih (by omega)]
    refine (initExpert (l := firstBuffers n) hn).trans ?_
    rw [hhidden, hinter]
    rfl

/-- **The segment is never exhausted.** Once a segment of the size that it reserves is mapped, the constructor raises
nothing but what a buffer's own check raises, and otherwise the buffers of expert `e` are the whole pages from
`e * (2 * gate_up + down)` on, in the order of the loop. -/
theorem initStore_eq (tpc : GeneralMOEConfig) (name : String) (base : ℕ) (alignedAlloc : ℕ × Proj → ℕ) :
    initStore tpc (.create name base (shmTotal tpc)) alignedAlloc =
      if tpc.expertNum = 0 then .ok (.after tpc name base 0 [])
      else do
        GeneralMOEConfig.bufferB tpc.hiddenSize tpc.groupSize
        GeneralMOEConfig.bufferB tpc.intermediateSize tpc.groupSize
        return .after tpc name base (tpc.expertNum * expertExtent tpc) (bufferOrder tpc) := by
  split
  · next hzero =>
    unfold initStore bufferOrder
    rw [hzero]
    rfl
  · next hpos =>
    have hfirst : ∃ rest, bufferOrder tpc = [(0, .gate), (0, .up), (0, .down)] ++ rest := by
      obtain ⟨m, hm⟩ := Nat.exists_eq_succ_of_ne_zero hpos
      refine ⟨((List.range m).map Nat.succ).flatMap fun e => [(e, .gate), (e, .up), (e, .down)], ?_⟩
      rw [bufferOrder, hm, List.range_succ_eq_map, List.flatMap_cons]
    obtain ⟨rest, hrest⟩ := hfirst
    have hexpert : [(0, Proj.gate), (0, .up), (0, .down)].foldlM (initBuffer tpc alignedAlloc)
        (.after tpc name base (0 * expertExtent tpc) []) = _ := initExpert (Nat.pos_of_ne_zero hpos)
    rw [Nat.zero_mul] at hexpert
    cases hhidden : GeneralMOEConfig.bufferB tpc.hiddenSize tpc.groupSize with
    | ok _ =>
      cases hinter : GeneralMOEConfig.bufferB tpc.intermediateSize tpc.groupSize with
      | ok _ => exact initStore_first hhidden hinter le_rfl
      | error msg =>
        rw [hhidden, hinter] at hexpert
        unfold initStore
        rw [hrest, List.foldlM_append]
        exact congrArg (· >>= _) hexpert
    | error msg =>
      rw [hhidden] at hexpert
      unfold initStore
      rw [hrest, List.foldlM_append]
      exact congrArg (· >>= _) hexpert

theorem shmOffset_add_le (k : ℕ × Proj) :
    shmOffset tpc k + k.2.extentBytes tpc ≤ (k.1 + 1) * expertExtent tpc := by
  rw [Nat.succ_mul]
  obtain ⟨e, p⟩ := k
  have hup : Proj.up.extentBytes tpc = Proj.gate.extentBytes tpc := extentBytes_up
  cases p <;> simp only [shmOffset, expertExtent] <;> omega

theorem le_shmOffset (k : ℕ × Proj) : k.1 * expertExtent tpc ≤ shmOffset tpc k := Nat.le_add_right ..

/-- The buffers of an earlier expert end before those of a later one start. -/
theorem shmOffset_of_lt {k k' : ℕ × Proj} (h : k.1 < k'.1) :
    shmOffset tpc k + k.2.extentBytes tpc ≤ shmOffset tpc k' :=
  (shmOffset_add_le k).trans ((Nat.mul_le_mul_right _ h).trans (le_shmOffset k'))

/-- Two buffers of a segment do not overlap. -/
theorem shmOffset_disjoint {k k' : ℕ × Proj} (h : k ≠ k') :
    shmOffset tpc k + k.2.extentBytes tpc ≤ shmOffset tpc k' ∨
      shmOffset tpc k' + k'.2.extentBytes tpc ≤ shmOffset tpc k := by
  rcases lt_trichotomy k.1 k'.1 with hlt | heq | hlt
  · exact .inl (shmOffset_of_lt hlt)
  · obtain ⟨e, p⟩ := k
    obtain ⟨e', p'⟩ := k'
    obtain rfl : e = e' := heq
    have hup : Proj.up.extentBytes tpc = Proj.gate.extentBytes tpc := extentBytes_up
    cases p <;> cases p' <;> first | exact absurd rfl h | (simp only [shmOffset]; omega)
  · exact .inr (shmOffset_of_lt hlt)

/-- Every buffer lies in its segment. -/
theorem shmOffset_fits {k : ℕ × Proj} (hk : k.1 < tpc.expertNum) :
    shmOffset tpc k + k.2.extentBytes tpc ≤ shmTotal tpc := (shmOffset_add_le k).trans (expert_le hk)

end Offsets

/-- The buffers of all partitions, when each partition's segment is mapped at `base i`: `mmap` returns whole pages,
apart from one another. -/
def shmExtents (config : GeneralMOEConfig) (tpCount : ℕ) (base : ℕ → ℕ) (haligned : ∀ i < tpCount, pageSize ∣ base i)
    (hplaced : Placed {i | i < tpCount} base fun _ => shmTotal (config.partition tpCount)) :
    Extents config tpCount where
  ptr k := base k.1 + shmOffset (config.partition tpCount) k.2
  aligned k hk := (haligned k.1 hk.1).add (pageSize_dvd_shmOffset k.2)
  placed := by
    rintro ⟨i, k⟩ hk ⟨i', k'⟩ hk' hne
    have hfit : shmOffset (config.partition tpCount) k + k.2.extentBytes (config.partition tpCount) ≤
        shmTotal (config.partition tpCount) := shmOffset_fits hk.2
    have hfit' : shmOffset (config.partition tpCount) k' + k'.2.extentBytes (config.partition tpCount) ≤
        shmTotal (config.partition tpCount) := shmOffset_fits hk'.2
    by_cases hi : i = i'
    · subst hi
      rw [Nat.add_assoc, Nat.add_assoc, Nat.add_le_add_iff_left, Nat.add_le_add_iff_left]
      exact shmOffset_disjoint fun heq => hne (Prod.ext rfl heq)
    · have hapart : base i + shmTotal (config.partition tpCount) ≤ base i' ∨
          base i' + shmTotal (config.partition tpCount) ≤ base i := hplaced i hk.1 i' hk'.1 hi
      simp only
      omega

/-! ## What the owner hands out -/

/-- `expert_host_ptrs`: weights and scales of gate, up and down. -/
def expertHostPtrs (tpc : GeneralMOEConfig) (ptr : ℕ × Proj → ℕ) (e : ℕ) : List ℕ :=
  [Proj.gate, .up, .down].flatMap fun p => [ptr (e, p), ptr (e, p) + scalesOff (p.rows tpc) (p.rowWeights tpc)]

/-- `expert_host_offsets`. -/
def expertHostOffsets (tpc : GeneralMOEConfig) (shm : ExpertStoreShm) (ptr : ℕ × Proj → ℕ) (e : ℕ) : List ℕ :=
  match shm.base with
  | none => []
  | some base => (expertHostPtrs tpc ptr e).map (· - base)

/-- `expert_host_bytes`. -/
def expertHostBytes (tpc : GeneralMOEConfig) : List ℕ :=
  let elems := tpc.intermediateSize * tpc.hiddenSize
  let w := elems / 2
  let s := elems / tpc.groupSize * 4
  [w, s, w, s, w, s]

/-- What rank 0 broadcasts of a layer's store. -/
structure StoreDesc where
  names : List String
  sizes : List ℕ
  offsets : List (List (List ℕ))
  bytes : List ℕ

/-- The description of the partitions' segments, with buffers at `ptr`. -/
def describeStore (config : GeneralMOEConfig) (tpCount : ℕ) (shm : ℕ → ExpertStoreShm) (ptr : Buf → ℕ) : StoreDesc where
  names := (List.range tpCount).map fun i => (shm i).name
  sizes := (List.range tpCount).map fun i => (shm i).size
  offsets := (List.range tpCount).map fun i => (List.range config.expertNum).map fun e =>
    expertHostOffsets (config.partition tpCount) (shm i) (fun k => ptr (i, k)) e
  bytes := expertHostBytes (config.partition tpCount)

/-! ## The reader -/

/-- A process that maps the segments, that of partition `tp` at `mapBase tp`: `host` is its memory, and
`hostRegister addr nbytes` pins pages and returns where the device finds them in `device`. -/
structure Reader where
  mapBase : ℕ → ℕ
  host : ℕ → UInt8
  device : ℕ → UInt8
  hostRegister : ℕ → ℕ → ℕ

/-- `host_register` returns device memory that reads as what was registered. -/
structure Reader.Mapped (reader : Reader) : Prop where
  registered : ∀ addr nbytes i, i < nbytes →
    reader.device (reader.hostRegister addr nbytes + i) = reader.host (addr + i)
  not_null : ∀ addr nbytes, reader.hostRegister addr nbytes ≠ 0

/-- The span of a row of regions. -/
def span (regionBytes row : List ℕ) : ℕ × ℕ :=
  (row.min?.getD 0, (List.zipWith (· + ·) row regionBytes).max?.getD 0)

/-- The pages that `host_register` pins, from the first to before the last. -/
def pinnedPages (addr nbytes : ℕ) : ℕ × ℕ := (addr / pageSize, (addr + nbytes + pageSize - 1) / pageSize)

/-- The column of the table for one expert of partition `tp`. -/
def tableColumn (reader : Reader) (regionBytes : List ℕ) (tp : ℕ) (need : Bool) (row : List ℕ) : List ℕ :=
  if row = [] ∨ need = false then List.replicate 6 0
  else
    let (spanLo, spanHi) := span regionBytes row
    let devLo := reader.hostRegister (reader.mapBase tp + spanLo) (spanHi - spanLo)
    row.map fun o => devLo + (o - spanLo)

/-- A Python index. -/
def index {α : Type*} (l : List α) (i : ℕ) : Except String α :=
  match l[i]? with
  | some a => .ok a
  | none => .error "list index out of range"

/-- `build_pointer_table_shm`: the columns, by partition and expert. -/
def buildPointerTableShm (reader : Reader) (desc : StoreDesc) (nExp : ℕ) (ownTp : List ℕ) (needMask : List Bool) :
    Except String (List (List (List ℕ))) :=
  if desc.names = [] ∨ desc.names.head? = some "" then
    .error ("expert store is not in shared memory; boot with KT_STORE_SHM=1 " ++
      "(without it only rank 0 can gather and one link cannot carry it)")
  else ownTp.mapM fun tp => (List.range nExp).mapM fun e => do
    let rows ← index desc.offsets tp
    let row ← index rows e
    let need ← index needMask e
    return tableColumn reader desc.bytes tp need row

/-- The partitions that a rank gathers. -/
def ownPartitions (tpRank world nCpuTp : ℕ) : List ℕ :=
  let per := max 1 (nCpuTp / max world 1)
  List.range' (tpRank * per) (min ((tpRank + 1) * per) nCpuTp - tpRank * per)

/-- `pf_build_table` of a rank. With residency that may move, every expert is mapped and none may be missing. -/
def pfBuildTable (reader : Reader) (desc : Option StoreDesc) (tpRank world : ℕ) (gpuExpertsMask : List Bool)
    (residencyMoves : Bool) : Except String (Option (List (List (List ℕ)))) :=
  match desc with
  | none => .ok none
  | some desc =>
    if desc.names = [] ∨ desc.names.head? = some "" then .ok none
    else
      let nExp := gpuExpertsMask.length
      let need := if residencyMoves then List.replicate nExp true else gpuExpertsMask.map (! ·)
      match buildPointerTableShm reader desc nExp (ownPartitions tpRank world desc.names.length) need with
      | .error _ => .ok none
      | .ok table =>
        match table[0]? with
        | none => .error "index 0 is out of bounds for dimension 0 with size 0"
        | some columns =>
          if residencyMoves ∧ ∃ column ∈ columns, column[0]? = some 0 then .ok none
          else .ok (some table)

/-! ## What a rank reads -/

section Reads

variable {config : GeneralMOEConfig} {tpCount : ℕ}

/-- In all three buffers of an expert the scales start where `expert_host_bytes` has the weights end. -/
theorem Accepted.scalesOff_eq (hacc : Accepted config tpCount) (p : Proj) :
    scalesOff (p.rows (config.partition tpCount)) (p.rowWeights (config.partition tpCount)) =
      sliceCells config tpCount 2 := by
  rw [scalesOff, Nat.mul_comm]
  exact (hacc.fits hacc.two_dvd).rows_mul p

theorem Accepted.sumsOff_eq (hacc : Accepted config tpCount) (p : Proj) :
    sumsOff (p.rows (config.partition tpCount)) (p.rowWeights (config.partition tpCount)) config.groupSize =
      sliceCells config tpCount 2 + sliceCells config tpCount config.groupSize * 4 := by
  rw [sumsOff, hacc.scalesOff_eq p, Nat.mul_comm (_ / _)]
  exact congrArg (fun c => sliceCells config tpCount 2 + c * 4) ((hacc.fits dvd_rfl).rows_mul p)

theorem Accepted.expertHostBytes_eq (hacc : Accepted config tpCount) :
    expertHostBytes (config.partition tpCount) =
      let w := sliceCells config tpCount 2
      let s := sliceCells config tpCount config.groupSize * 4
      [w, s, w, s, w, s] := by
  have hw := (hacc.fits hacc.two_dvd).mul_div
  have hs := (hacc.fits dvd_rfl).mul_div
  unfold expertHostBytes
  simp only [GeneralMOEConfig.partition, hw, hs]

/-- The offsets of an expert's regions. -/
def storeRow (config : GeneralMOEConfig) (tpCount e : ℕ) : List ℕ :=
  [Proj.gate, .up, .down].flatMap fun p => [shmOffset (config.partition tpCount) (e, p),
    shmOffset (config.partition tpCount) (e, p) + sliceCells config tpCount 2]

theorem Accepted.expertHostOffsets_eq (hacc : Accepted config tpCount) (shm : ExpertStoreShm) {base : ℕ}
    (hbase : shm.base = some base) (e : ℕ) :
    expertHostOffsets (config.partition tpCount) shm (fun k => base + shmOffset (config.partition tpCount) k) e =
      storeRow config tpCount e := by
  unfold expertHostOffsets expertHostPtrs storeRow
  simp only [hbase, hacc.scalesOff_eq, List.map_flatMap, List.map_cons, List.map_nil, Nat.add_assoc,
    Nat.add_sub_cancel_left]

/-- A region lies in its buffer. -/
theorem Accepted.region_le (hacc : Accepted config tpCount) (p : Proj) :
    sliceCells config tpCount 2 + sliceCells config tpCount config.groupSize * 4 ≤
      p.extentBytes (config.partition tpCount) := by
  rw [← hacc.sumsOff_eq p]
  refine le_trans ?_ (le_pageRoundUp _)
  exact Nat.le_add_right ..

/-- The span of an expert runs from its gate weights to its down scales. -/
theorem Accepted.span_eq (hacc : Accepted config tpCount) (e : ℕ) :
    span (expertHostBytes (config.partition tpCount)) (storeRow config tpCount e) = (shmOffset (config.partition tpCount) (e, .gate),
      shmOffset (config.partition tpCount) (e, .down) +
        (sliceCells config tpCount 2 + sliceCells config tpCount config.groupSize * 4)) := by
  have hgate := hacc.region_le .gate
  have hup : shmOffset (config.partition tpCount) (e, .up) = shmOffset (config.partition tpCount) (e, .gate) +
    Proj.gate.extentBytes (config.partition tpCount) := rfl
  have hdown : shmOffset (config.partition tpCount) (e, .down) = shmOffset (config.partition tpCount) (e, .up) +
      Proj.gate.extentBytes (config.partition tpCount) := by
    simp only [shmOffset]
    omega
  rw [hacc.expertHostBytes_eq]
  simp only [span, storeRow, List.flatMap_cons, List.flatMap_nil, List.cons_append, List.nil_append, List.zipWith_cons_cons,
    List.zipWith_nil_left, List.min?_cons', List.max?_cons', List.foldl_cons, List.foldl_nil, Option.getD_some,
    Prod.mk.injEq]
  omega

/-- The pages pinned for an earlier expert end before those for a later one start. -/
theorem pinnedPages_apart (hacc : Accepted config tpCount) {mapBase e e' : ℕ} (hmap : pageSize ∣ mapBase)
    (h : e < e') :
    let pages (e : ℕ) :=
      let (spanLo, spanHi) := span (expertHostBytes (config.partition tpCount)) (storeRow config tpCount e)
      pinnedPages (mapBase + spanLo) (spanHi - spanLo)
    (pages e).2 ≤ (pages e').1 := by
  have hregion := hacc.region_le .down
  have hlater : shmOffset (config.partition tpCount) (e, .down) + Proj.down.extentBytes (config.partition tpCount) ≤
      shmOffset (config.partition tpCount) (e', .gate) := shmOffset_of_lt h
  have horder : shmOffset (config.partition tpCount) (e, .gate) ≤ shmOffset (config.partition tpCount) (e, .down) := by
    simp only [shmOffset]
    omega
  have hpage : pageSize ∣ shmOffset (config.partition tpCount) (e', .gate) := pageSize_dvd_shmOffset _
  obtain ⟨q, hq⟩ := hmap.add hpage
  simp only [hacc.span_eq, pinnedPages, hq]
  rw [Nat.mul_div_cancel_left q (by decide), Nat.div_le_iff_le_mul_add_pred (by decide)]
  unfold pageSize at hq ⊢
  omega

/-- The pointers of an expert that is mapped. -/
theorem tableColumn_eq (hacc : Accepted config tpCount) (reader : Reader) (tp e : ℕ) :
    tableColumn reader (expertHostBytes (config.partition tpCount)) tp true (storeRow config tpCount e) =
      (storeRow config tpCount e).map fun o => reader.hostRegister
        (reader.mapBase tp + shmOffset (config.partition tpCount) (e, .gate))
        (shmOffset (config.partition tpCount) (e, .down) + (sliceCells config tpCount 2 +
          sliceCells config tpCount config.groupSize * 4) - shmOffset (config.partition tpCount) (e, .gate)) +
        (o - shmOffset (config.partition tpCount) (e, .gate)) := by
  unfold tableColumn
  rw [hacc.span_eq, if_neg]
  simp [storeRow]

/-- The region of a projection's weights; that of its scales is the next. -/
def Proj.region : Proj → ℕ
  | .gate => 0
  | .up => 2
  | .down => 4

/-- Byte `a` of a buffer as a gather finds it: in the region of the weights, of `w` bytes, or in that of the scales. -/
def columnByte (reader : Reader) (w : ℕ) (column : List ℕ) (p : Proj) (a : ℕ) : Option UInt8 :=
  if a < w then column[p.region]?.map fun ptr => reader.device (ptr + a)
  else column[p.region + 1]?.map fun ptr => reader.device (ptr + (a - w))

/-- What the pointers of an expert read. -/
theorem columnByte_eq (hacc : Accepted config tpCount) {reader : Reader} (hmapped : reader.Mapped) (tp e : ℕ) (p : Proj)
    {a : ℕ} (ha : a < sliceCells config tpCount 2 + sliceCells config tpCount config.groupSize * 4) :
    columnByte reader (sliceCells config tpCount 2)
        (tableColumn reader (expertHostBytes (config.partition tpCount)) tp true (storeRow config tpCount e)) p a =
      some (reader.host (reader.mapBase tp + (shmOffset (config.partition tpCount) (e, p) + a))) := by
  have hlo : shmOffset (config.partition tpCount) (e, .gate) ≤ shmOffset (config.partition tpCount) (e, p) := by
    cases p <;> simp only [shmOffset] <;> omega
  have hhi : shmOffset (config.partition tpCount) (e, p) ≤ shmOffset (config.partition tpCount) (e, .down) := by
    cases p <;> simp only [shmOffset] <;> omega
  rw [tableColumn_eq hacc]
  generalize hdev : reader.hostRegister _ _ = dev
  have hread : ∀ i, shmOffset (config.partition tpCount) (e, .gate) ≤ i →
      i < shmOffset (config.partition tpCount) (e, .down) + (sliceCells config tpCount 2 +
        sliceCells config tpCount config.groupSize * 4) →
      reader.device (dev + (i - shmOffset (config.partition tpCount) (e, .gate))) =
        reader.host (reader.mapBase tp + i) := by
    intro i hi hi'
    rw [← hdev, hmapped.registered _ _ _ (by omega)]
    congr 1
    omega
  have hweights : (storeRow config tpCount e)[p.region]? = some (shmOffset (config.partition tpCount) (e, p)) := by
    cases p <;> rfl
  have hscales : (storeRow config tpCount e)[p.region + 1]? =
      some (shmOffset (config.partition tpCount) (e, p) + sliceCells config tpCount 2) := by
    cases p <;> rfl
  rw [← hread _ (by omega) (by omega)]
  unfold columnByte
  split
  · rw [List.getElem?_map, hweights]
    simp only [Option.map_some, Option.some.injEq]
    congr 1
    omega
  · rw [List.getElem?_map, hscales]
    simp only [Option.map_some, Option.some.injEq]
    congr 1
    omega

/-! ## The table of a rank -/

theorem mapM_ok {α β : Type*} {l : List α} {f : α → Except String β} {g : α → β} (h : ∀ a ∈ l, f a = .ok (g a)) :
    l.mapM f = .ok (l.map g) := by
  induction l with
  | nil => rfl
  | cons a l ih =>
    rw [List.mapM_cons, h a List.mem_cons_self, ih fun b hb => h b (List.mem_cons_of_mem a hb)]
    rfl

theorem index_range {α : Type*} {f : ℕ → α} {n i : ℕ} (hi : i < n) : index ((List.range n).map f) i = .ok (f i) := by
  simp [index, hi]

theorem index_eq {α : Type*} {l : List α} {i : ℕ} {a : α} (h : l[i]? = some a) : index l i = .ok a := by
  simp [index, h]

/-- The segments of a layer, mapped by the owner at `base`. -/
def segments (config : GeneralMOEConfig) (tpCount pid layerIdx : ℕ) (base : ℕ → ℕ) (i : ℕ) : ExpertStoreShm :=
  .create (ExpertStoreShm.makeName pid layerIdx i) (base i) (shmTotal (config.partition tpCount))

theorem makeName_ne (pid layerIdx tpPart : ℕ) : ExpertStoreShm.makeName pid layerIdx tpPart ≠ "" := by
  intro h
  have hlen := congrArg String.length h
  simp [ExpertStoreShm.makeName] at hlen

theorem describeStore_named (htp : 0 < tpCount) {pid layerIdx : ℕ} {base : ℕ → ℕ} (ptr : Buf → ℕ) :
    ¬ ((describeStore config tpCount (segments config tpCount pid layerIdx base) ptr).names = [] ∨
      (describeStore config tpCount (segments config tpCount pid layerIdx base) ptr).names.head? = some "") := by
  obtain ⟨n, rfl⟩ := Nat.exists_eq_succ_of_ne_zero htp.ne'
  simp [describeStore, List.range_succ_eq_map, segments, ExpertStoreShm.create, makeName_ne]

/-- The table that a reader builds of the segments. -/
theorem buildPointerTableShm_eq (hacc : Accepted config tpCount) (reader : Reader) {pid layerIdx : ℕ} {base : ℕ → ℕ}
    (htp : 0 < tpCount) {ownTp : List ℕ} (hown : ∀ tp ∈ ownTp, tp < tpCount) {need : List Bool}
    (hneed : need.length = config.expertNum) :
    buildPointerTableShm reader (describeStore config tpCount (segments config tpCount pid layerIdx base)
        fun k => base k.1 + shmOffset (config.partition tpCount) k.2) config.expertNum ownTp need =
      .ok (ownTp.map fun tp => (List.range config.expertNum).map fun e => tableColumn reader
        (expertHostBytes (config.partition tpCount)) tp (need.getD e false) (storeRow config tpCount e)) := by
  unfold buildPointerTableShm
  rw [if_neg (describeStore_named htp _)]
  apply mapM_ok
  intro tp htp
  apply mapM_ok
  intro e he
  rw [List.mem_range] at he
  have hrow : expertHostOffsets (config.partition tpCount) (segments config tpCount pid layerIdx base tp)
      (fun k => base tp + shmOffset (config.partition tpCount) k) e = storeRow config tpCount e :=
    hacc.expertHostOffsets_eq _ rfl e
  have hindex : index need e = .ok (need.getD e false) := by
    apply index_eq
    rw [List.getD_eq_getElem?_getD, List.getElem?_eq_getElem (hneed ▸ he)]
    rfl
  simp only [describeStore, index_range (hown tp htp), index_range he, hindex, hrow, bind, Except.bind, pure,
    Except.pure]

theorem mem_ownPartitions {tpRank world nCpuTp tp : ℕ} :
    tp ∈ ownPartitions tpRank world nCpuTp ↔
      let per := max 1 (nCpuTp / max world 1)
      tp < nCpuTp ∧ tpRank * per ≤ tp ∧ tp < (tpRank + 1) * per := by
  simp only [ownPartitions, List.mem_range'_1]
  omega

/-- A partition is a rank's exactly if the rank is what `per` divides it into. -/
theorem mem_ownPartitions_iff {tpRank world nCpuTp tp : ℕ} (htp : tp < nCpuTp) :
    tp ∈ ownPartitions tpRank world nCpuTp ↔ tp / max 1 (nCpuTp / max world 1) = tpRank := by
  have hpos : 0 < max 1 (nCpuTp / max world 1) := lt_of_lt_of_le one_pos (le_max_left ..)
  rw [mem_ownPartitions, Nat.div_eq_iff hpos]
  simp only [Nat.add_mul, Nat.one_mul]
  omega

/-- **Which partitions are gathered.** Every CPU partition is some rank's, and then one rank's only, exactly if the
ranks divide the partitions evenly or are at least as many. -/
theorem ownPartitions_cover_iff {world nCpuTp : ℕ} (hworld : 0 < world) :
    (∀ tp < nCpuTp, ∃! tpRank, tpRank < world ∧ tp ∈ ownPartitions tpRank world nCpuTp) ↔
      world ∣ nCpuTp ∨ nCpuTp ≤ world := by
  have hpos : 0 < max 1 (nCpuTp / max world 1) := lt_of_lt_of_le one_pos (le_max_left ..)
  have hworld' : max world 1 = world := max_eq_left hworld
  have hfit : (∀ tp < nCpuTp, ∃! tpRank, tpRank < world ∧ tp ∈ ownPartitions tpRank world nCpuTp) ↔
      nCpuTp ≤ world * max 1 (nCpuTp / max world 1) := by
    constructor
    · intro h
      by_contra hlt
      obtain ⟨r, ⟨hr, hmem⟩, -⟩ := h (world * max 1 (nCpuTp / max world 1)) (not_le.1 hlt)
      rw [mem_ownPartitions_iff (not_le.1 hlt), Nat.mul_div_cancel _ hpos] at hmem
      omega
    · intro h tp htp
      refine ⟨tp / max 1 (nCpuTp / max world 1), ⟨?_, (mem_ownPartitions_iff htp).2 rfl⟩, ?_⟩
      · exact Nat.div_lt_of_lt_mul ((htp.trans_le h).trans_eq (Nat.mul_comm ..))
      · exact fun r hr => ((mem_ownPartitions_iff htp).1 hr.2).symm
  rw [hfit, hworld']
  by_cases hle : nCpuTp ≤ world
  · have hone : nCpuTp / world ≤ 1 := Nat.div_le_of_le_mul (by omega)
    rw [max_eq_left hone, Nat.mul_one]
    exact iff_of_true hle (.inr hle)
  · have hone : 1 ≤ nCpuTp / world := Nat.div_pos (by omega) hworld
    rw [max_eq_right hone, or_iff_left hle]
    constructor
    · exact fun h => Dvd.intro _ (le_antisymm (Nat.mul_div_le ..) h)
    · exact fun h => (Nat.mul_div_cancel' h).ge

section Table

variable {Bf16 F32 : Type*} {h : Headers Bf16 F32} {fp32Byte : F32 → ℕ → UInt8} {source : Source Bf16} {ram ram' : Ram}
  {base : ℕ → ℕ} {haligned : ∀ i < tpCount, pageSize ∣ base i}
  {hplaced : Placed {i | i < tpCount} base fun _ => shmTotal (config.partition tpCount)}

/-- **What a rank gathers.** After `load_weights` into the segments, any rank that has partitions of its own and maps
them anywhere gets its table. The regions it points to read, in the reader's device memory, the slice of every expert
that is staged; only if residency is fixed are the experts that were on the GPU left out, with null pointers. -/
theorem pfBuildTable_reads (hh : h.Lawful) (hb : h.Bounded) (hacc : Accepted config tpCount)
    (hboot : Boots h fp32Byte (shmExtents config tpCount base haligned hplaced) source ram ram') (pid layerIdx : ℕ)
    {reader : Reader} (hmapped : reader.Mapped)
    (hshared : ∀ tp < tpCount, ∀ o < shmTotal (config.partition tpCount),
      reader.host (reader.mapBase tp + o) = ram' () (base tp + o))
    {gpuExpertsMask : List Bool} (hmask : gpuExpertsMask.length = config.expertNum) {tpRank world : ℕ}
    (hown : ownPartitions tpRank world tpCount ≠ []) (residencyMoves : Bool) :
    ∃ table : List (List (List ℕ)), pfBuildTable reader (some (describeStore config tpCount (segments config tpCount pid layerIdx base)
        (shmExtents config tpCount base haligned hplaced).ptr)) tpRank world gpuExpertsMask residencyMoves =
          .ok (some table) ∧
      ∀ slot tp : ℕ, (ownPartitions tpRank world tpCount)[slot]? = some tp → ∀ e < config.expertNum,
        ∃ column, (table[slot]?.bind fun columns : List (List ℕ) => columns[e]?) = some column ∧
          if residencyMoves = true ∨ gpuExpertsMask[e]? = some false then
            ¬ config.shouldSkipExpert e → ¬ config.shouldSkipExpert (config.expertMap e) → ∀ p : Proj,
              ∀ a < sliceCells config tpCount 2 + sliceCells config tpCount config.groupSize * 4,
                columnByte reader (sliceCells config tpCount 2) column p a =
                  some (sliceBytes h fp32Byte config tpCount tp (source.expert config (config.expertMap e)) p a)
          else column = List.replicate 6 0 := by
  have htp : 0 < tpCount := by
    obtain ⟨tp, htp⟩ := List.exists_mem_of_ne_nil _ hown
    exact (Nat.zero_le tp).trans_lt (mem_ownPartitions.1 htp).1
  have hlt : ∀ tp ∈ ownPartitions tpRank world tpCount, tp < tpCount := fun tp htp => (mem_ownPartitions.1 htp).1
  let need := if residencyMoves then List.replicate gpuExpertsMask.length true else gpuExpertsMask.map (! ·)
  have hneed : need.length = config.expertNum := by
    show (if residencyMoves then _ else _ : List Bool).length = _
    split <;> simp [hmask]
  have hentry : ∀ e < config.expertNum,
      need.getD e false = true ↔ residencyMoves = true ∨ gpuExpertsMask[e]? = some false := by
    intro e he
    have hlen : e < gpuExpertsMask.length := hmask ▸ he
    cases residencyMoves <;> simp [need, hlen]
  let table := (ownPartitions tpRank world tpCount).map fun tp => (List.range config.expertNum).map fun e =>
    tableColumn reader (expertHostBytes (config.partition tpCount)) tp (need.getD e false) (storeRow config tpCount e)
  refine ⟨table, ?_, ?_⟩
  · obtain ⟨tp₀, rest, hcons⟩ := List.exists_cons_of_ne_nil hown
    have hno : ¬ (residencyMoves = true ∧ ∃ column ∈ (List.range config.expertNum).map fun e =>
        tableColumn reader (expertHostBytes (config.partition tpCount)) tp₀ (need.getD e false)
          (storeRow config tpCount e), column[0]? = some 0) := by
      rintro ⟨hmoves, column, hcolumn, hzero⟩
      obtain ⟨e, he, rfl⟩ := List.mem_map.1 hcolumn
      rw [(hentry e (List.mem_range.1 he)).2 (.inl hmoves), tableColumn_eq hacc] at hzero
      have hnull := hmapped.not_null
      simp [storeRow] at hzero
      exact hnull _ _ hzero
    have hlength : (describeStore config tpCount (segments config tpCount pid layerIdx base)
        (shmExtents config tpCount base haligned hplaced).ptr).names.length = tpCount := by
      simp [describeStore]
    have htable : buildPointerTableShm reader (describeStore config tpCount (segments config tpCount pid layerIdx base)
        (shmExtents config tpCount base haligned hplaced).ptr) gpuExpertsMask.length
        (ownPartitions tpRank world tpCount) need = .ok table := by
      rw [hmask]
      exact buildPointerTableShm_eq hacc reader htp hlt hneed
    have hfirst : table[0]? = some ((List.range config.expertNum).map fun e => tableColumn reader
        (expertHostBytes (config.partition tpCount)) tp₀ (need.getD e false) (storeRow config tpCount e)) := by
      simp [table, hcons]
    unfold pfBuildTable
    simp only [if_neg (describeStore_named htp _), hlength]
    rw [htable]
    simp only [hfirst, if_neg hno]
  · intro slot tp hslot e he
    refine ⟨tableColumn reader (expertHostBytes (config.partition tpCount)) tp (need.getD e false)
      (storeRow config tpCount e), ?_, ?_⟩
    · simp [table, hslot, he]
    · split
      · next hmapped' =>
        rw [(hentry e he).2 hmapped']
        intro hskip hskip' p a ha
        have hfit : shmOffset (config.partition tpCount) (e, p) + p.extentBytes (config.partition tpCount) ≤
          shmTotal (config.partition tpCount) := shmOffset_fits he
        have hregion := hacc.region_le p
        have hsize : a < p.bufferSize (config.partition tpCount) := by
          refine ha.trans_le ?_
          rw [← hacc.sumsOff_eq p]
          exact Nat.le_add_right ..
        have htp' := hlt tp (List.mem_of_getElem? hslot)
        rw [columnByte_eq hacc hmapped tp e p ha, hshared tp htp' _ (by omega), ← Nat.add_assoc]
        exact congrArg some (booted_byte hh hb hacc hboot htp' he hskip hskip' p hsize)
      · next hnot =>
        have hfalse : need.getD e false = false := by
          rw [← Bool.not_eq_true]
          exact fun htrue => hnot ((hentry e he).1 htrue)
        unfold tableColumn
        rw [hfalse, if_pos (.inr rfl)]

end Table

end Reads

/-! ## Two experts on two partitions -/

/-- Segments of seven pages, one after the other. -/
def twoBases (i : ℕ) : ℕ := pageSize * (7 * i)

/-- A process that has them where the owner has, and whose device finds host memory one byte further on. -/
def twoReader (ram : Ram) : Reader where
  mapBase := twoBases
  host := ram ()
  device a := ram () (a - 1)
  hostRegister addr _ := addr + 1

theorem twoReader_mapped (ram : Ram) : (twoReader ram).Mapped where
  registered addr _ i _ := by
    show ram () (addr + 1 + i - 1) = ram () (addr + i)
    congr 1
    omega
  not_null addr _ := Nat.succ_ne_zero addr

theorem twoBases_aligned : ∀ i < 2, pageSize ∣ twoBases i := fun _ _ => Nat.dvd_mul_right _ _

theorem twoBases_placed : Placed {i | i < 2} twoBases fun _ => shmTotal (twoExperts.partition 2) := by
  intro i hi i' hi' hne
  have htotal : shmTotal (twoExperts.partition 2) = pageSize * 7 := by decide
  simp only [htotal, twoBases, pageSize]
  omega

/-- Rank 1 finds in its partition the bytes of both experts, the second of which was on the GPU at boot. -/
theorem pfBuildTable_reads_twoExperts :
    ∃ ram table, Boots bitHeaders bitByte (shmExtents twoExperts 2 twoBases twoBases_aligned twoBases_placed)
        (.perExpert fun _ => ⟨fun _ _ => 7, fun _ _ => 1⟩) (fun _ _ => 0xAA) ram ∧
      pfBuildTable (twoReader ram) (some (describeStore twoExperts 2 (segments twoExperts 2 10 0 twoBases)
        (shmExtents twoExperts 2 twoBases twoBases_aligned twoBases_placed).ptr)) 1 2 [false, true] true =
          .ok (some table) ∧
      ∃ column, (table[0]?.bind fun columns : List (List ℕ) => columns[1]?) = some column ∧
        columnByte (twoReader ram) 512 column .down 5 = some 7 := by
  obtain ⟨ram, hboot⟩ := exists_boots bitHeaders bitByte
    (shmExtents twoExperts 2 twoBases twoBases_aligned twoBases_placed)
    (.perExpert fun _ => ⟨fun _ _ => 7, fun _ _ => 1⟩) fun _ _ => 0xAA
  obtain ⟨table, htable, hreads⟩ := pfBuildTable_reads bitHeaders_lawful bitHeaders_bounded twoExperts_accepted hboot 10 0
    (twoReader_mapped ram) (fun _ _ _ _ => rfl)
    (rfl : [false, true].length = twoExperts.expertNum) (by decide : ownPartitions 1 2 2 ≠ []) true
  obtain ⟨column, hcolumn, hread⟩ := hreads 0 1 (by decide) 1 (by decide)
  refine ⟨ram, table, hboot, htable, column, hcolumn, ?_⟩
  exact hread (by decide) (by decide) .down 5 (by decide)

end ExpertServe.PackedInt4
