import ExpertServe.Kernel.ExpertBytes

/-!
# Promoting and releasing one expert

Between decode steps `load_expert` stages one expert out of its tensors on disk, and `release_expert` gives the pages of
one back, which then read as zeros. What a run of such calls leaves of each expert is what the last call for it left.

* `Op.Step`: one call;
* `Kept.after`: what should become of each expert;
* `loaded_byte`, `released_byte`: the buffers of the expert of a call;
* `Op.Step.frame`: those of all others;
* `run_keeps`: every run keeps what it should;
* `promote_isolated`: a promoted expert is as `load_weights` would have staged it, and moves are isolated.
-/

namespace ExpertServe.PackedInt4

open Lib

variable {Bf16 F32 : Type*}

/-! ## The calls -/

/-- A call: `load_expert` with the tensors of an expert on disk, or `release_expert`. -/
inductive Op (Bf16 : Type*) where
  | load (expertId : ℤ) (disk : Tensors Bf16)
  | release (expertId : ℤ)

def Op.expertId : Op Bf16 → ℤ
  | .load expertId _ => expertId
  | .release expertId => expertId

/-- The checks of `load_expert`. -/
def loadExpertCheck (config : GeneralMOEConfig) (expertId : ℤ) : Except String ℕ :=
  if config.groupSize = 0 then .error "AVX-512 PACKED RAWINT4 requires group_size > 0"
  else if expertId < 0 ∨ expertId ≥ config.expertNum then .error "load_expert: expert_id out of range"
  else .ok expertId.toNat

/-- The slice of partition `i` of every row of down, into `down_buf` and `down_scale_buf`. -/
def gatherDown (config tpc : GeneralMOEConfig) (i : ℕ) (disk : Tensors Bf16) : Work Proj Bf16 :=
  let groupSize := config.groupSize
  { weights := (List.range config.hiddenSize).map fun col =>
      ⟨.down, (col * tpc.intermediateSize) >>> 1, tpc.intermediateSize >>> 1,
        fun j => disk.weight .down (((col * config.intermediateSize + i * tpc.intermediateSize) >>> 1) + j)⟩
    scales := (List.range config.hiddenSize).map fun col =>
      ⟨.down, col * (tpc.intermediateSize / groupSize), tpc.intermediateSize / groupSize,
        fun j => disk.scale .down
          (col * (config.intermediateSize / groupSize) + i * (tpc.intermediateSize / groupSize) + j)⟩ }

/-- The sources of `load_one_expert` on partition `i`: gate and up in the tensors, down in the temporaries. -/
def sources (config tpc : GeneralMOEConfig) (i : ℕ) (disk down : Tensors Bf16) : Tensors Bf16 :=
  let weightElemCount := tpc.intermediateSize * tpc.hiddenSize
  let scalesElemCount := tpc.hiddenSize / config.groupSize * tpc.intermediateSize
  { weight := fun p j =>
      match p with
      | .gate | .up => disk.weight p (((i * weightElemCount) >>> 1) + j)
      | .down => down.weight .down j
    scale := fun p j =>
      match p with
      | .gate | .up => disk.scale p (i * scalesElemCount + j)
      | .down => down.scale .down j }

section Calls

variable (h : Headers Bf16 F32) (fp32Byte : F32 → ℕ → UInt8)

/-- `load_one_expert`, worker `ith` of `nth`. -/
def loadOneExpert (tpc : GeneralMOEConfig) (i expertIdx : ℕ) (src : Tensors Bf16) (ith nth : ℕ) :
    List (Copy Buf UInt8) :=
  if expertIdx ≥ tpc.expertNum then []
  else [.gate, .up, .down].flatMap fun p =>
    rawBytes h fp32Byte (i, expertIdx, p) (p.rows tpc) (p.rowWeights tpc) tpc.groupSize (src.weight p) (src.scale p)
      ith nth

/-- The tasks of `load_expert` on partition `i`: as many workers for all three projections. -/
def loadExpertTasks (config tpc : GeneralMOEConfig) (i expertId : ℕ) (disk down : Tensors Bf16) :
    List (Copy Buf UInt8) :=
  let nth := recommendedNth tpc.intermediateSize
  (List.range nth).flatMap fun ith =>
    loadOneExpert h fp32Byte tpc i expertId (sources config tpc i disk down) ith nth

/-- `madvise(addr, length, MADV_DONTNEED)`: from a page on, whole pages read as zeros. -/
def madviseDontneed (addr length : ℕ) : List (Copy Unit UInt8) :=
  if addr % pageSize = 0 then [⟨(), addr, pageRoundUp length, fun _ => 0⟩] else []

variable {config : GeneralMOEConfig} {tpCount : ℕ} (x : Extents config tpCount)

/-- `release_expert` on all partitions. -/
def releaseExpert (expertId : ℤ) : List (Copy Unit UInt8) :=
  if expertId < 0 ∨ expertId ≥ config.expertNum then []
  else (List.range tpCount).flatMap fun i => [.gate, .up, .down].flatMap fun p =>
    madviseDontneed (x.ptr (i, expertId.toNat, p)) (p.extentBytes (config.partition tpCount))

/-- A call may take memory from `ram` to `ram'`; one that raises leaves it as it was. -/
def Op.Step (op : Op Bf16) (ram ram' : Ram) : Prop :=
  let tpc := config.partition tpCount
  match op with
  | .load expertId disk =>
    match loadExpertCheck config expertId with
    | .error _ => ram' = ram
    | .ok e => ∃ down : ℕ → Tensors Bf16,
        (∀ i < tpCount, ∃ down₀ : Tensors Bf16,
          Runs (gatherDown config tpc i disk).weights down₀.weight (down i).weight ∧
          Runs (gatherDown config tpc i disk).scales down₀.scale (down i).scale) ∧
        Runs (((List.range tpCount).flatMap fun i =>
          loadExpertTasks h fp32Byte config tpc i e disk (down i)).map (Copy.place x.ptr)) ram ram'
  | .release expertId => Runs (releaseExpert x expertId) ram ram'

/-- A run of calls. -/
def OpsRun : List (Op Bf16) → Ram → Ram → Prop
  | [], ram, ram' => ram' = ram
  | op :: ops, ram, ram' => ∃ mid, op.Step h fp32Byte x ram mid ∧ OpsRun ops mid ram'

end Calls

/-! ## What should become of an expert -/

/-- What the last call for an expert made of it, if there was one. -/
inductive Kept (Bf16 : Type*) where
  | untouched
  | released
  | staged (disk : Tensors Bf16)

/-- A call changes its own expert only. -/
def Kept.step (config : GeneralMOEConfig) (kept : ℕ → Kept Bf16) (op : Op Bf16) : ℕ → Kept Bf16 :=
  if op.expertId < 0 ∨ op.expertId ≥ config.expertNum then kept
  else Function.update kept op.expertId.toNat (match op with | .load _ disk => .staged disk | .release _ => .released)

def Kept.after (config : GeneralMOEConfig) (ops : List (Op Bf16)) : ℕ → Kept Bf16 :=
  ops.foldl (Kept.step config) fun _ => .untouched

/-- Memory `ram` holds of expert `e` what was kept of it, in all partitions. -/
def Kept.In (h : Headers Bf16 F32) (fp32Byte : F32 → ℕ → UInt8) {config : GeneralMOEConfig} {tpCount : ℕ}
    (x : Extents config tpCount) (ram₀ ram : Ram) (e : ℕ) (kept : Kept Bf16) : Prop :=
  let tpc := config.partition tpCount
  ∀ i < tpCount, ∀ p : Proj,
    match kept with
    | .untouched => ∀ a < p.extentBytes tpc, ram () (x.ptr (i, e, p) + a) = ram₀ () (x.ptr (i, e, p) + a)
    | .released => ∀ a < p.extentBytes tpc, ram () (x.ptr (i, e, p) + a) = 0
    | .staged disk => ∀ a < p.bufferSize tpc,
        ram () (x.ptr (i, e, p) + a) = sliceBytes h fp32Byte config tpCount i disk p a

/-! ## The slices -/

section Slices

variable {config : GeneralMOEConfig} {tpCount i : ℕ} {disk : Tensors Bf16}

/-- The copies of the rows of down of one expert alone. -/
def downCopies {α : Type*} (config : GeneralMOEConfig) (tpCount i unit : ℕ) (tensor : Proj → ℕ → α) :
    List (Copy Proj α) :=
  let cols := config.intermediateSize / tpCount / unit
  (List.range config.hiddenSize).map fun col =>
    ⟨.down, col * cols, cols, fun j => tensor .down (col * (config.intermediateSize / unit) + i * cols + j)⟩

theorem gatherDown_weights (hfit : Fits config tpCount 2) :
    (gatherDown config (config.partition tpCount) i disk).weights = downCopies config tpCount i 2 disk.weight := by
  simp only [gatherDown, downCopies, GeneralMOEConfig.partition, Nat.shiftRight_one,
    add_mul_div hfit.inter hfit.slice, Nat.mul_div_assoc _ hfit.slice]

theorem gatherDown_scales : (gatherDown config (config.partition tpCount) i disk).scales =
    downCopies config tpCount i config.groupSize disk.scale := rfl

/-- They are those copies of the staging of expert 0 that are into down. -/
theorem mem_downCopies {α : Type*} {unit : ℕ} {tensor : Proj → ℕ → α} {c : Copy Proj α} :
    c ∈ downCopies config tpCount i unit tensor ↔ c ∈ stageCopies config tpCount i unit tensor 0 ∧ c.dst = .down := by
  simp only [downCopies, stageCopies, Nat.zero_mul, Nat.zero_add, List.mem_cons]
  constructor
  · intro hc
    obtain ⟨col, -, rfl⟩ := List.mem_map.mp hc
    exact ⟨.inr (.inr hc), rfl⟩
  · rintro ⟨rfl | rfl | hc, hdst⟩
    · exact Proj.noConfusion hdst
    · exact Proj.noConfusion hdst
    · exact hc

/-- The gathered rows of down are the slice of the partition. -/
theorem gathered_cell {α : Type*} {unit : ℕ} (hfit : Fits config tpCount unit) {tensor : Proj → ℕ → α}
    {mem mem' : Proj → ℕ → α} (hrun : Runs (downCopies config tpCount i unit tensor) mem mem') {j : ℕ}
    (hj : j < sliceCells config tpCount unit) : mem' .down j = cpuSlice config tpCount i unit tensor .down j := by
  have hzero : ∀ j, 0 * sliceCells config tpCount unit + j = j := fun j => by rw [Nat.zero_mul, Nat.zero_add]
  refine hrun.eq_of_agree ?_ fun c hc hhit => ?_
  · obtain ⟨c, hc, hhit⟩ := exists_hit_stageCopies (i := i) hfit tensor 0 .down hj
    rw [hzero] at hhit
    exact ⟨c, mem_downCopies.mpr ⟨hc, hhit.1⟩, hhit⟩
  · obtain ⟨-, hval⟩ := val_of_mem_stageCopies (e := 0) hfit (mem_downCopies.mp hc).1 hj (by rwa [hzero])
    rw [hzero] at hval
    exact hval

/-- The sources of a partition are its slices. -/
theorem sources_weight (hfit : Fits config tpCount 2) {down₀ down : Tensors Bf16}
    (hrun : Runs (gatherDown config (config.partition tpCount) i disk).weights down₀.weight down.weight) (p : Proj)
    {j : ℕ} (hj : j < sliceCells config tpCount 2) :
    (sources config (config.partition tpCount) i disk down).weight p j =
      cpuSlice config tpCount i 2 disk.weight p j := by
  have hslice : 2 ∣ config.intermediateSize / tpCount * config.hiddenSize := hfit.hidden.mul_left _
  have hoff : (i * (config.intermediateSize / tpCount * config.hiddenSize)) >>> 1 = i * sliceCells config tpCount 2 := by
    rw [Nat.shiftRight_one, Nat.mul_div_assoc _ hslice, hfit.mul_div]
  cases p with
  | gate => exact congrArg (fun o => disk.weight .gate (o + j)) hoff
  | up => exact congrArg (fun o => disk.weight .up (o + j)) hoff
  | down =>
    rw [gatherDown_weights hfit] at hrun
    show down.weight .down j = _
    exact gathered_cell hfit hrun hj

theorem sources_scale (hfit : Fits config tpCount config.groupSize) {down₀ down : Tensors Bf16}
    (hrun : Runs (gatherDown config (config.partition tpCount) i disk).scales down₀.scale down.scale) (p : Proj)
    {j : ℕ} (hj : j < sliceCells config tpCount config.groupSize) :
    (sources config (config.partition tpCount) i disk down).scale p j =
      cpuSlice config tpCount i config.groupSize disk.scale p j := by
  have hoff : i * (config.hiddenSize / config.groupSize * (config.intermediateSize / tpCount)) =
      i * sliceCells config tpCount config.groupSize := by
    rw [sliceCells, Nat.mul_comm (config.hiddenSize / config.groupSize)]
  cases p with
  | gate => exact congrArg (fun o => disk.scale .gate (o + j)) hoff
  | up => exact congrArg (fun o => disk.scale .up (o + j)) hoff
  | down =>
    rw [gatherDown_scales] at hrun
    show down.scale .down j = _
    exact gathered_cell hfit hrun hj

end Slices

/-! ## One call -/

section Step

variable {h : Headers Bf16 F32} {fp32Byte : F32 → ℕ → UInt8} {config : GeneralMOEConfig} {tpCount i : ℕ}
  {x : Extents config tpCount} {ram ram' : Ram}

theorem loadExpertCheck_ok {expertId : ℤ} {e : ℕ} (hok : loadExpertCheck config expertId = .ok e) :
    (e : ℤ) = expertId ∧ e < config.expertNum := by
  unfold loadExpertCheck at hok
  split at hok
  · cases hok
  · split at hok
    · cases hok
    · have he : expertId.toNat = e := Except.ok.inj hok
      omega

theorem loadExpertCheck_of_lt (hgroup : 0 < config.groupSize) {expertId : ℤ} (hlo : 0 ≤ expertId)
    (hhi : expertId < config.expertNum) : loadExpertCheck config expertId = .ok expertId.toNat := by
  unfold loadExpertCheck
  rw [if_neg (by omega), if_neg (by omega)]

theorem mem_loadExpertTasks {e : ℕ} (he : e < config.expertNum) {disk down : Tensors Bf16} {c : Copy Buf UInt8} :
    c ∈ loadExpertTasks h fp32Byte config (config.partition tpCount) i e disk down ↔
      ∃ ith < recommendedNth (config.intermediateSize / tpCount), ∃ p : Proj,
        c ∈ rawBytes h fp32Byte (i, e, p) (p.rows (config.partition tpCount))
          (p.rowWeights (config.partition tpCount)) config.groupSize
          ((sources config (config.partition tpCount) i disk down).weight p)
          ((sources config (config.partition tpCount) i disk down).scale p) ith
          (recommendedNth (config.intermediateSize / tpCount)) := by
  have hthere : ¬ e ≥ (config.partition tpCount).expertNum := Nat.not_le_of_lt he
  simp only [loadExpertTasks, loadOneExpert, if_neg hthere, List.mem_flatMap, List.mem_range]
  refine exists_congr fun ith => and_congr_right fun _ => ?_
  constructor
  · rintro ⟨p, -, hc⟩
    exact ⟨p, hc⟩
  · rintro ⟨p, hc⟩
    exact ⟨p, by cases p <;> decide, hc⟩

theorem loadExpertTasks_within (hb : h.Bounded) {e : ℕ} (he : e < config.expertNum) (disk : Tensors Bf16)
    (down : ℕ → Tensors Bf16) :
    Within (bufs config tpCount) (fun k => k.2.2.extentBytes (config.partition tpCount))
      ((List.range tpCount).flatMap fun i =>
        loadExpertTasks h fp32Byte config (config.partition tpCount) i e disk (down i)) := by
  intro c hc
  obtain ⟨i, hi, hc⟩ := List.mem_flatMap.mp hc
  obtain ⟨ith, hith, p, hc⟩ := (mem_loadExpertTasks he).mp hc
  obtain ⟨hdst, hlen⟩ := rawBytes_within (hb _ _ _ hith) hc
  rw [hdst]
  exact ⟨⟨List.mem_range.mp hi, he⟩, hlen.trans (le_pageRoundUp _)⟩

theorem loadExpertTasks_dst (hb : h.Bounded) {e : ℕ} (he : e < config.expertNum) {disk down : Tensors Bf16}
    {c : Copy Buf UInt8} (hc : c ∈ loadExpertTasks h fp32Byte config (config.partition tpCount) i e disk down) :
    c.dst.1 = i ∧ c.dst.2.1 = e := by
  obtain ⟨ith, hith, p, hc⟩ := (mem_loadExpertTasks he).mp hc
  obtain ⟨hdst, -⟩ := rawBytes_within (hb _ _ _ hith) hc
  rw [hdst]
  exact ⟨rfl, rfl⟩

/-- **Promoted.** After `load_expert` the buffers of the expert hold its slice. -/
theorem loaded_byte (hh : h.Lawful) (hb : h.Bounded) (hacc : Accepted config tpCount) {expertId : ℤ}
    {disk : Tensors Bf16} (hstep : (Op.load expertId disk).Step h fp32Byte x ram ram') {e : ℕ}
    (hok : loadExpertCheck config expertId = .ok e) (hi : i < tpCount) (p : Proj) {a : ℕ}
    (ha : a < p.bufferSize (config.partition tpCount)) :
    ram' () (x.ptr (i, e, p) + a) = sliceBytes h fp32Byte config tpCount i disk p a := by
  obtain ⟨-, he⟩ := loadExpertCheck_ok hok
  unfold Op.Step at hstep
  simp only [hok] at hstep
  obtain ⟨down, hgather, hrun⟩ := hstep
  obtain ⟨down₀, hweights, hscales⟩ := hgather i hi
  have hsize : a < p.extentBytes (config.partition tpCount) := ha.trans_le (le_pageRoundUp _)
  have hbuf : (i, e, p) ∈ bufs config tpCount := ⟨hi, he⟩
  have hslice : bufferBytes h fp32Byte (p.rows (config.partition tpCount)) (p.rowWeights (config.partition tpCount))
      config.groupSize ((sources config (config.partition tpCount) i disk (down i)).weight p)
      ((sources config (config.partition tpCount) i disk (down i)).scale p) a =
      sliceBytes h fp32Byte config tpCount i disk p a := by
    refine bufferBytes_congr (hacc.bufferB p) (fun j hj => ?_) (fun s hs => ?_) ha
    · rw [(hacc.fits hacc.two_dvd).rows_mul] at hj
      exact sources_weight (hacc.fits hacc.two_dvd) hweights p hj
    · rw [(hacc.fits dvd_rfl).rows_mul] at hs
      exact sources_scale (hacc.fits dvd_rfl) hscales p hs
  refine hrun.placed_eq x.placed (loadExpertTasks_within hb he disk down) hbuf hsize ?_ fun c hc hhit => ?_
  · obtain ⟨ith, hith, c, hc, hhit⟩ := exists_rawBytes fp32Byte hh
      (recommendedNth_pos (config.intermediateSize / tpCount)) ((i, e, p) : Buf)
      ((sources config (config.partition tpCount) i disk (down i)).weight p)
      ((sources config (config.partition tpCount) i disk (down i)).scale p) ha
    exact ⟨c, List.mem_flatMap.mpr ⟨i, List.mem_range.mpr hi, (mem_loadExpertTasks he).mpr ⟨ith, hith, p, hc⟩⟩, hhit⟩
  · obtain ⟨i', -, hc⟩ := List.mem_flatMap.mp hc
    obtain ⟨ith, hith, p', hc⟩ := (mem_loadExpertTasks he).mp hc
    have hrows := hb (p'.rows (config.partition tpCount)) _ _ hith
    have hkey := (rawBytes_within hrows hc).1.symm.trans hhit.1
    obtain ⟨rfl, hkey'⟩ := Prod.mk.inj hkey
    obtain ⟨-, rfl⟩ := Prod.mk.inj hkey'
    exact (rawBytes_eq hrows hc hhit).trans hslice

/-- The pages of an expert, as copies of zeros into its buffers. -/
def zeroPages (config : GeneralMOEConfig) (tpCount e : ℕ) : List (Copy Buf UInt8) :=
  (List.range tpCount).flatMap fun i => [.gate, .up, .down].map fun p =>
    ⟨(i, e, p), 0, p.extentBytes (config.partition tpCount), fun _ => 0⟩

theorem releaseExpert_eq {expertId : ℤ} (hlo : 0 ≤ expertId) (hhi : expertId < config.expertNum) :
    releaseExpert x expertId = (zeroPages config tpCount expertId.toNat).map (Copy.place x.ptr) := by
  unfold releaseExpert zeroPages
  rw [if_neg (by omega), List.map_flatMap]
  refine List.flatMap_congr fun i hi => ?_
  rw [List.map_map, List.map_eq_flatMap]
  refine List.flatMap_congr fun p _ => ?_
  have hbuf : (i, expertId.toNat, p) ∈ bufs config tpCount := by
    refine ⟨List.mem_range.mp hi, ?_⟩
    show expertId.toNat < config.expertNum
    omega
  unfold madviseDontneed
  rw [if_pos (Nat.mod_eq_zero_of_dvd (x.aligned _ hbuf)), Proj.extentBytes, pageRoundUp_idem]
  rfl

theorem zeroPages_within {e : ℕ} (he : e < config.expertNum) :
    Within (bufs config tpCount) (fun k => k.2.2.extentBytes (config.partition tpCount))
      (zeroPages config tpCount e) := by
  intro c hc
  obtain ⟨i, hi, hc⟩ := List.mem_flatMap.mp hc
  obtain ⟨p, -, rfl⟩ := List.mem_map.mp hc
  exact ⟨⟨List.mem_range.mp hi, he⟩, (Nat.zero_add _).le⟩

/-- **Released.** After `release_expert` every byte of the expert reads as zero. -/
theorem released_byte {e : ℕ} (hstep : (Op.release (e : ℤ) : Op Bf16).Step h fp32Byte x ram ram')
    (he : e < config.expertNum) (hi : i < tpCount) (p : Proj) {a : ℕ}
    (ha : a < p.extentBytes (config.partition tpCount)) : ram' () (x.ptr (i, e, p) + a) = 0 := by
  have hrun : Runs (releaseExpert x e) ram ram' := hstep
  rw [releaseExpert_eq (Int.natCast_nonneg e) (Int.ofNat_lt.mpr he), Int.toNat_natCast] at hrun
  have hbuf : (i, e, p) ∈ bufs config tpCount := ⟨hi, he⟩
  refine hrun.placed_eq x.placed (zeroPages_within he) hbuf ha ?_ fun c hc _ => ?_
  · refine ⟨⟨(i, e, p), 0, p.extentBytes (config.partition tpCount), fun _ => 0⟩, ?_, rfl, Nat.zero_le _, ?_⟩
    · refine List.mem_flatMap.mpr ⟨i, List.mem_range.mpr hi, List.mem_map_of_mem ?_⟩
      cases p <;> decide
    · simpa using ha
  · obtain ⟨i', -, hc⟩ := List.mem_flatMap.mp hc
    obtain ⟨p', -, rfl⟩ := List.mem_map.mp hc
    rfl

/-- **Isolation.** A call leaves every byte of every other expert as it was. -/
theorem Op.Step.frame (hb : h.Bounded) {op : Op Bf16} (hstep : op.Step h fp32Byte x ram ram') {e : ℕ}
    (he : e < config.expertNum) (hne : (e : ℤ) ≠ op.expertId) (hi : i < tpCount) (p : Proj) {a : ℕ}
    (ha : a < p.extentBytes (config.partition tpCount)) :
    ram' () (x.ptr (i, e, p) + a) = ram () (x.ptr (i, e, p) + a) := by
  have hbuf : (i, e, p) ∈ bufs config tpCount := ⟨hi, he⟩
  cases op with
  | load expertId disk =>
    unfold Op.Step at hstep
    cases hok : loadExpertCheck config expertId with
    | error msg =>
      simp only [hok] at hstep
      rw [hstep]
    | ok e' =>
      simp only [hok] at hstep
      obtain ⟨down, -, hrun⟩ := hstep
      obtain ⟨hid, he'⟩ := loadExpertCheck_ok hok
      refine hrun.placed_frame x.placed (loadExpertTasks_within hb he' disk down) hbuf ha fun c hc hdst => hne ?_
      obtain ⟨i', -, hc⟩ := List.mem_flatMap.mp hc
      have hexpert := (loadExpertTasks_dst hb he' hc).2
      rw [hdst] at hexpert
      exact (congrArg Nat.cast hexpert).trans hid
  | release expertId =>
    have hrun : Runs (releaseExpert x expertId) ram ram' := hstep
    by_cases hid : expertId < 0 ∨ expertId ≥ config.expertNum
    · rw [releaseExpert, if_pos hid] at hrun
      exact hrun.eq_of_not_hits fun c hc => absurd hc List.not_mem_nil
    · rw [releaseExpert_eq (by omega) (by omega)] at hrun
      refine hrun.placed_frame x.placed (zeroPages_within (by omega)) hbuf ha fun c hc hdst => hne ?_
      obtain ⟨i', -, hc⟩ := List.mem_flatMap.mp hc
      obtain ⟨p', -, rfl⟩ := List.mem_map.mp hc
      obtain ⟨-, hkey⟩ := Prod.mk.inj hdst
      have hexpert : expertId.toNat = e := (Prod.mk.inj hkey).1
      show (e : ℤ) = expertId
      omega

end Step

/-! ## Runs -/

section OpsRun

variable {h : Headers Bf16 F32} {fp32Byte : F32 → ℕ → UInt8} {config : GeneralMOEConfig} {tpCount : ℕ}
  {x : Extents config tpCount} {ram₀ ram ram' : Ram}

/-- One call keeps what it should of every expert. -/
theorem Op.Step.keeps (hh : h.Lawful) (hb : h.Bounded) (hacc : Accepted config tpCount) {op : Op Bf16}
    (hstep : op.Step h fp32Byte x ram ram') {kept : ℕ → Kept Bf16}
    (hkept : ∀ e < config.expertNum, (kept e).In h fp32Byte x ram₀ ram e) {e : ℕ} (he : e < config.expertNum) :
    (Kept.step config kept op e).In h fp32Byte x ram₀ ram' e := by
  -- an expert that is not that of the call keeps all its bytes
  have hother : (e : ℤ) ≠ op.expertId → (kept e).In h fp32Byte x ram₀ ram' e := by
    intro hne i hi p
    have hbefore := hkept e he i hi p
    cases hk : kept e with
    | untouched =>
      rw [hk] at hbefore
      exact fun a ha => (hstep.frame hb he hne hi p ha).trans (hbefore a ha)
    | released =>
      rw [hk] at hbefore
      exact fun a ha => (hstep.frame hb he hne hi p ha).trans (hbefore a ha)
    | staged disk =>
      rw [hk] at hbefore
      exact fun a ha => (hstep.frame hb he hne hi p (ha.trans_le (le_pageRoundUp _))).trans (hbefore a ha)
  unfold Kept.step
  by_cases hid : op.expertId < 0 ∨ op.expertId ≥ config.expertNum
  · rw [if_pos hid]
    exact hother (by omega)
  · rw [if_neg hid]
    by_cases hsame : e = op.expertId.toNat
    · rw [hsame, Function.update_self, ← hsame]
      have hcast : (e : ℤ) = op.expertId := by omega
      cases op with
      | load expertId disk =>
        have hid' : ¬ (expertId < 0 ∨ expertId ≥ config.expertNum) := hid
        have hok := loadExpertCheck_of_lt (bufferB_ok (hacc.bufferB .gate)).1 (Int.not_lt.mp (not_or.mp hid').1)
          (Int.not_le.mp (not_or.mp hid').2)
        have he' : expertId.toNat = e := hsame.symm
        rw [he'] at hok
        exact fun i hi p a ha => loaded_byte hh hb hacc hstep hok hi p ha
      | release expertId =>
        obtain rfl : (e : ℤ) = expertId := hcast
        exact fun i hi p a ha => released_byte hstep he hi p ha
    · rw [Function.update_of_ne hsame]
      exact hother (by omega)

/-- **Every run keeps what it should.** -/
theorem run_keeps (hh : h.Lawful) (hb : h.Bounded) (hacc : Accepted config tpCount) {ops : List (Op Bf16)}
    (hrun : OpsRun h fp32Byte x ops ram₀ ram) {e : ℕ} (he : e < config.expertNum) :
    (Kept.after config ops e).In h fp32Byte x ram₀ ram e := by
  have hfold : ∀ (ops : List (Op Bf16)) (mid : Ram) (kept : ℕ → Kept Bf16), OpsRun h fp32Byte x ops mid ram →
      (∀ e < config.expertNum, (kept e).In h fp32Byte x ram₀ mid e) →
      (ops.foldl (Kept.step config) kept e).In h fp32Byte x ram₀ ram e := by
    intro ops
    induction ops with
    | nil =>
      rintro mid kept rfl hkept
      exact hkept e he
    | cons op ops ih =>
      rintro mid kept ⟨mid', hstep, hrest⟩ hkept
      exact ih mid' (Kept.step config kept op) hrest fun e' he' => hstep.keeps hh hb hacc hkept he'
  exact hfold ops ram₀ _ hrun fun _ _ _ _ _ _ _ => rfl

/-- **Promoting equals boot loading, and moves are isolated.** After any run of calls, the buffers of an expert whose
last call promoted it hold, byte for byte, what `load_weights` stages of it under any mask that keeps it, and those of
one whose last call released it read as zeros; and a call changes no byte of the pages of another expert. -/
theorem promote_isolated (hh : h.Lawful) (hb : h.Bounded) (hacc : Accepted config tpCount)
    (hmap : ∀ e, config.expertMap e = e) {ops : List (Op Bf16)} (hrun : OpsRun h fp32Byte x ops ram₀ ram) :
    (∀ e < config.expertNum, ∀ (mask : Option (ℕ → Bool)) (y : Extents { config with gpuExpertsMask := mask } tpCount)
      (source : Source Bf16) (boot₀ boot : Ram), Boots h fp32Byte y source boot₀ boot →
      ¬ GeneralMOEConfig.shouldSkipExpert { config with gpuExpertsMask := mask } e →
      Kept.after config ops e = .staged (source.expert config e) →
      ∀ i < tpCount, ∀ p : Proj, ∀ a < p.bufferSize (config.partition tpCount),
        ram () (x.ptr (i, e, p) + a) = boot () (y.ptr (i, e, p) + a)) ∧
    (∀ e < config.expertNum, Kept.after config ops e = .released →
      ∀ i < tpCount, ∀ p : Proj, ∀ a < p.extentBytes (config.partition tpCount), ram () (x.ptr (i, e, p) + a) = 0) ∧
    ∀ (op : Op Bf16) (ram' : Ram), op.Step h fp32Byte x ram ram' → ∀ e < config.expertNum, (e : ℤ) ≠ op.expertId →
      ∀ i < tpCount, ∀ p : Proj, ∀ a < p.extentBytes (config.partition tpCount),
        ram' () (x.ptr (i, e, p) + a) = ram () (x.ptr (i, e, p) + a) := by
  refine ⟨fun e he mask y source boot₀ boot hboot hskip hkept i hi p a ha => ?_,
    fun e he hkept i hi p a ha => ?_, fun op ram' hstep e he hne i hi p a ha => hstep.frame hb he hne hi p ha⟩
  · have hstaged := run_keeps hh hb hacc hrun he i hi p
    rw [hkept] at hstaged
    have hacc' : Accepted { config with gpuExpertsMask := mask } tpCount := ⟨hacc.whole, hacc.ok⟩
    have hmap' : GeneralMOEConfig.expertMap { config with gpuExpertsMask := mask } e = e := hmap e
    have hbooted := booted_byte hh hb hacc' hboot hi he hskip (by rwa [hmap']) p ha
    rw [hmap'] at hbooted
    exact (hstaged a ha).trans hbooted.symm
  · have hreleased := run_keeps hh hb hacc hrun he i hi p
    rw [hkept] at hreleased
    exact hreleased a ha

variable (h fp32Byte x) in
/-- A call can be made. -/
theorem exists_step (op : Op Bf16) (ram : Ram) [Inhabited Bf16] : ∃ ram', op.Step h fp32Byte x ram ram' := by
  unfold Op.Step
  cases op with
  | load expertId disk =>
    cases hok : loadExpertCheck config expertId with
    | error msg => exact ⟨ram, by simp only [hok]⟩
    | ok e =>
      simp only [hok]
      have hgather : ∀ i, ∃ down : Tensors Bf16,
          Runs (gatherDown config (config.partition tpCount) i disk).weights (fun _ _ => 0) down.weight ∧
          Runs (gatherDown config (config.partition tpCount) i disk).scales (fun _ _ => default) down.scale := by
        intro i
        obtain ⟨weight, hweight⟩ := exists_runs
          (gatherDown config (config.partition tpCount) i disk).weights fun _ _ => 0
        obtain ⟨scale, hscale⟩ := exists_runs
          (gatherDown config (config.partition tpCount) i disk).scales fun _ _ => default
        exact ⟨⟨weight, scale⟩, hweight, hscale⟩
      choose down hdown using hgather
      obtain ⟨ram', hrun⟩ := exists_runs (((List.range tpCount).flatMap fun i => loadExpertTasks h fp32Byte config
        (config.partition tpCount) i e disk (down i)).map (Copy.place x.ptr)) ram
      exact ⟨ram', down, fun i _ => ⟨⟨fun _ _ => 0, fun _ _ => default⟩, hdown i⟩, hrun⟩
  | release expertId => exact exists_runs _ ram

variable (h fp32Byte x) in
theorem exists_opsRun [Inhabited Bf16] (ops : List (Op Bf16)) (ram : Ram) :
    ∃ ram', OpsRun h fp32Byte x ops ram ram' := by
  induction ops generalizing ram with
  | nil => exact ⟨ram, rfl⟩
  | cons op ops ih =>
    obtain ⟨mid, hstep⟩ := exists_step h fp32Byte x op ram
    obtain ⟨ram', hrun⟩ := ih mid
    exact ⟨ram', mid, hstep, hrun⟩

end OpsRun

/-! ## Two experts on two partitions -/

/-- The bytes of an fp32, least significant first. -/
def bitByte (v : BitVec 32) (j : ℕ) : UInt8 := .ofBitVec ((v >>> (8 * j)).setWidth 8)

theorem bitHeaders_bounded : bitHeaders.Bounded := fun n _ _ _ => Nat.min_le_right _ n

def twoExperts : GeneralMOEConfig := ⟨2, 32, 64, 32, false, none, none⟩

theorem twoExperts_accepted : Accepted twoExperts 2 := ⟨by decide, by rfl⟩

/-- The buffers one page after the other. -/
def pageOf : Buf → ℕ
  | (i, e, .gate) => (i * 2 + e) * 3
  | (i, e, .up) => (i * 2 + e) * 3 + 1
  | (i, e, .down) => (i * 2 + e) * 3 + 2

theorem pageOf_injOn {k k' : Buf} (hk : k.2.1 < 2) (hk' : k'.2.1 < 2) (h : pageOf k = pageOf k') : k = k' := by
  obtain ⟨i, e, p⟩ := k
  obtain ⟨i', e', p'⟩ := k'
  simp only at hk hk'
  cases p <;> cases p' <;> simp only [pageOf] at h <;> simp <;> omega

def twoExtents : Extents twoExperts 2 where
  ptr k := pageSize * pageOf k
  aligned _ _ := Nat.dvd_mul_right _ _
  placed k hk k' hk' hne := by
    have hpage : ∀ p : Proj, p.extentBytes (twoExperts.partition 2) = pageSize := by
      intro p
      cases p <;> decide
    have hdiff : pageOf k ≠ pageOf k' := fun heq => hne (pageOf_injOn hk.2 hk'.2 heq)
    simp only [hpage]
    unfold pageSize
    omega

/-- One expert is promoted and another released; the first is as booted, and the second reads as zeros. -/
theorem promote_isolated_twoExperts :
    ∃ ram boot, OpsRun bitHeaders bitByte twoExtents
        [.load 0 ⟨fun _ _ => 7, fun _ _ => 1⟩, .load 1 ⟨fun _ _ => 5, fun _ _ => 1⟩, .release 1]
        (fun _ _ => 0xAA) ram ∧
      Boots bitHeaders bitByte twoExtents (.perExpert fun _ => ⟨fun _ _ => 7, fun _ _ => 1⟩) (fun _ _ => 0xBB) boot ∧
      ram () (pageSize * pageOf (1, 0, .down) + 5) = boot () (pageSize * pageOf (1, 0, .down) + 5) ∧
      ram () (pageSize * pageOf (1, 1, .down) + 5) = 0 := by
  obtain ⟨ram, hrun⟩ := exists_opsRun bitHeaders bitByte twoExtents
    [.load 0 ⟨fun _ _ => 7, fun _ _ => 1⟩, .load 1 ⟨fun _ _ => 5, fun _ _ => 1⟩, .release 1] fun _ _ => 0xAA
  obtain ⟨boot, hboot⟩ := exists_boots bitHeaders bitByte twoExtents
    (.perExpert fun _ => ⟨fun _ _ => 7, fun _ _ => 1⟩) fun _ _ => 0xBB
  obtain ⟨hbooted, hreleased, -⟩ := promote_isolated bitHeaders_lawful bitHeaders_bounded twoExperts_accepted
    (fun _ => rfl) hrun
  refine ⟨ram, boot, hrun, hboot, ?_, ?_⟩
  · exact hbooted 0 (by decide) none twoExtents _ _ boot hboot (by decide) rfl 1 (by decide) .down 5 (by decide)
  · exact hreleased 1 (by decide) rfl 1 (by decide) .down 5 (by decide)

end ExpertServe.PackedInt4
