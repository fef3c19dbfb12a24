import ExpertServe.Kernel.Promote

/-!
# Staging under a mask

The staging loop of `TP_MOE::load_weights` passes over the experts whose logical id is masked, the tasks of the
partitions over those whose own id is. They fit when no expert that is kept is mapped to a masked one.

* `loadReads`: the cells of the flat buffers that the tasks read;
* `BootsRight`: every one of them is staged, and every expert that is kept is booted with the slice the map names;
* `staged_of_kept`, `not_staged`: which cells are staged;
* `bootsRight_iff`: exactly when all is right;
* `exists_unstaged`: what an expert is left with otherwise.
-/

namespace ExpertServe.PackedInt4

open Lib

variable {Bf16 F32 : Type*}

/-! ## What the tasks read -/

/-- Cells of the flat buffers, of packed bytes and of scales. -/
structure Reads where
  weights : List (Proj × ℕ)
  scales : List (Proj × ℕ)

/-- The cells of rows of `cols` cells, from cell `base` on. -/
def rowReads (p : Proj) (base cols : ℕ) (rows : ℕ × ℕ) : List (Proj × ℕ) :=
  (List.range' rows.1 (rows.2 - rows.1)).flatMap fun ni => (List.range cols).map fun j => (p, base + (ni * cols + j))

/-- What a task of `load_weights` of a partition reads: `from_raw_mat` goes through the rows of its worker. -/
def loadTaskReads (h : Headers Bf16 F32) (tpc : GeneralMOEConfig) (n k nth : ℕ) (p : Proj) (taskId : ℕ) : Reads :=
  let expertIdx := taskId / nth
  if tpc.shouldSkipExpert expertIdx then ⟨[], []⟩
  else
    let logical := tpc.expertMap expertIdx
    let ith := taskId % nth
    let weightBytesPerExpert := n * k / 2
    let scaleElemsPerExpert := n * (k / tpc.groupSize)
    let rows := h.splitRange n ith nth
    ⟨rowReads p (logical * weightBytesPerExpert) (k / 2) rows,
      rowReads p (logical * scaleElemsPerExpert) (k / tpc.groupSize) rows⟩

def loadReads (h : Headers Bf16 F32) (tpc : GeneralMOEConfig) : List Reads :=
  let gateUpNth := recommendedNth tpc.intermediateSize
  let downNth := recommendedNth tpc.hiddenSize
  let gateUp (p : Proj) := loadTaskReads h tpc tpc.intermediateSize tpc.hiddenSize gateUpNth p
  let down := loadTaskReads h tpc tpc.hiddenSize tpc.intermediateSize downNth .down
  (List.range (gateUpNth * tpc.expertNum)).flatMap (fun taskId => [gateUp .gate taskId, gateUp .up taskId]) ++
    (List.range (downNth * tpc.expertNum)).map down

/-- No cell of the flat buffers is read that the staging did not write, and the buffers of every expert that is not
skipped get the slice of the expert the map names. -/
structure BootsRight (h : Headers Bf16 F32) (fp32Byte : F32 → ℕ → UInt8) {config : GeneralMOEConfig} {tpCount : ℕ}
    (x : Extents config tpCount) (source : Source Bf16) : Prop where
  weightsWritten : ∀ i < tpCount, ∀ r ∈ loadReads h (config.partition tpCount), ∀ cell ∈ r.weights,
    ∃ c ∈ (stage config (config.partition tpCount) i source).weights, c.Hits cell.1 cell.2
  scalesWritten : ∀ i < tpCount, ∀ r ∈ loadReads h (config.partition tpCount), ∀ cell ∈ r.scales,
    ∃ c ∈ (stage config (config.partition tpCount) i source).scales, c.Hits cell.1 cell.2
  booted : ∀ ram ram', Boots h fp32Byte x source ram ram' → ∀ i < tpCount, ∀ e < config.expertNum,
    ¬ config.shouldSkipExpert e → ∀ p : Proj, ∀ a < p.bufferSize (config.partition tpCount),
      ram' () (x.ptr (i, e, p) + a) =
        sliceBytes h fp32Byte config tpCount i (source.expert config (config.expertMap e)) p a

/-! ## The cells of an expert -/

section Reads

variable {h : Headers Bf16 F32} {tpc config : GeneralMOEConfig} {tpCount i unit : ℕ} {source : Source Bf16}

theorem mem_loadReads {r : Reads} : r ∈ loadReads h tpc ↔ ∃ p : Proj, ∃ t < recommendedNth (p.rows tpc) * tpc.expertNum,
    r = loadTaskReads h tpc (p.rows tpc) (p.rowWeights tpc) (recommendedNth (p.rows tpc)) p t :=
  mem_projTasks tpc fun p => loadTaskReads h tpc (p.rows tpc) (p.rowWeights tpc) (recommendedNth (p.rows tpc)) p

/-- The rows that are read lie in the matrix. -/
theorem mem_rowReads {p : Proj} {base cols n : ℕ} {rows : ℕ × ℕ} (hrows : rows.2 ≤ n) {cell : Proj × ℕ}
    (hcell : cell ∈ rowReads p base cols rows) : ∃ j < n * cols, cell = (p, base + j) := by
  obtain ⟨ni, hni, hcell⟩ := List.mem_flatMap.mp hcell
  obtain ⟨j, hj, rfl⟩ := List.mem_map.mp hcell
  have hni := List.mem_range'_1.mp hni
  have hj := List.mem_range.mp hj
  exact ⟨ni * cols + j, piece_lt (by omega) hj, rfl⟩

/-- **What is read**: cells of the slices of experts that are not skipped. -/
theorem loadReads_spec (hb : h.Bounded) (hacc : Accepted config tpCount) {r : Reads}
    (hr : r ∈ loadReads h (config.partition tpCount)) :
    (∀ cell ∈ r.weights, ∃ e < config.expertNum, ¬ config.shouldSkipExpert e ∧ ∃ j < sliceCells config tpCount 2,
      cell.2 = config.expertMap e * sliceCells config tpCount 2 + j) ∧
    ∀ cell ∈ r.scales, ∃ e < config.expertNum, ¬ config.shouldSkipExpert e ∧
      ∃ j < sliceCells config tpCount config.groupSize,
        cell.2 = config.expertMap e * sliceCells config tpCount config.groupSize + j := by
  obtain ⟨p, t, ht, rfl⟩ := mem_loadReads.mp hr
  have hworker := Nat.mod_lt t (recommendedNth_pos (p.rows (config.partition tpCount)))
  have hrows := hb (p.rows (config.partition tpCount)) _ _ hworker
  have he : t / recommendedNth (p.rows (config.partition tpCount)) < config.expertNum := Nat.div_lt_of_lt_mul ht
  unfold loadTaskReads
  dsimp only
  split
  · exact ⟨fun _ hcell => absurd hcell List.not_mem_nil, fun _ hcell => absurd hcell List.not_mem_nil⟩
  · next hskip =>
    refine ⟨fun cell hcell => ?_, fun cell hcell => ?_⟩
    · obtain ⟨j, hj, rfl⟩ := mem_rowReads hrows hcell
      rw [(hacc.fits hacc.two_dvd).rows_mul] at hj
      refine ⟨_, he, hskip, j, hj, ?_⟩
      rw [(hacc.fits hacc.two_dvd).rows_mul_div]
      rfl
    · obtain ⟨j, hj, rfl⟩ := mem_rowReads hrows hcell
      have hcols := (hacc.fits dvd_rfl).rows_mul p
      refine ⟨_, he, hskip, j, hj.trans_eq hcols, ?_⟩
      show _ = _ * sliceCells config tpCount config.groupSize + j
      rw [← hcols]
      rfl

variable (h tpc) in
theorem loadTaskReads_of_kept {n k nth e ith : ℕ} (p : Proj) (hith : ith < nth) (hskip : ¬ tpc.shouldSkipExpert e) :
    loadTaskReads h tpc n k nth p (e * nth + ith) =
      ⟨rowReads p (tpc.expertMap e * (n * k / 2)) (k / 2) (h.splitRange n ith nth),
        rowReads p (tpc.expertMap e * (n * (k / tpc.groupSize))) (k / tpc.groupSize) (h.splitRange n ith nth)⟩ := by
  obtain ⟨hdiv, hmod⟩ := piece_div_mod (t := e) hith
  simp only [loadTaskReads, hdiv, hmod, if_neg hskip]

/-- The first byte of the gate of an expert that is not skipped is read. -/
theorem gate_read (hh : h.Lawful) (hacc : Accepted config tpCount) (hcells : 0 < sliceCells config tpCount 2) {e : ℕ}
    (he : e < config.expertNum) (hskip : ¬ config.shouldSkipExpert e) :
    ∃ r ∈ loadReads h (config.partition tpCount),
      (Proj.gate, config.expertMap e * sliceCells config tpCount 2 + 0) ∈ r.weights := by
  have hrows : 0 < Proj.gate.rows (config.partition tpCount) := Nat.pos_of_mul_pos_right hcells
  have hcols : 0 < Proj.gate.rowWeights (config.partition tpCount) / 2 := Nat.pos_of_mul_pos_left hcells
  obtain ⟨ith, hith, hlo, hhi⟩ := hh.covers _ _ _ (recommendedNth_pos (Proj.gate.rows (config.partition tpCount))) hrows
  refine ⟨_, mem_loadReads.mpr ⟨.gate, e * recommendedNth (Proj.gate.rows (config.partition tpCount)) + ith,
    (piece_lt he hith).trans_eq (Nat.mul_comm _ _), rfl⟩, ?_⟩
  rw [loadTaskReads_of_kept h (config.partition tpCount) .gate hith hskip,
    ← (hacc.fits hacc.two_dvd).rows_mul_div .gate]
  refine List.mem_flatMap.mpr ⟨0, List.mem_range'_1.mpr ⟨hlo, by omega⟩, ?_⟩
  refine List.mem_map.mpr ⟨0, List.mem_range.mpr hcols, ?_⟩
  rw [Nat.zero_mul]
  rfl

/-- The slice of a logical expert that is not masked is staged. -/
theorem staged_of_kept (hfit : Fits config tpCount unit) {α : Type*} (tensor : ℕ → Proj → ℕ → α)
    {cs : List (Copy Proj α)}
    (hcs : ∀ c, c ∈ cs ↔ ∃ physical < config.expertNum, ¬ config.shouldSkipExpert (config.expertMap physical) ∧
      c ∈ stageCopies config tpCount i unit (tensor (config.expertMap physical)) (config.expertMap physical))
    {e : ℕ} (he : e < config.expertNum) (hskip : ¬ config.shouldSkipExpert (config.expertMap e)) (p : Proj) {j : ℕ}
    (hj : j < sliceCells config tpCount unit) :
    ∃ c ∈ cs, c.Hits p (config.expertMap e * sliceCells config tpCount unit + j) := by
  obtain ⟨c, hc, hhit⟩ := exists_hit_stageCopies (i := i) hfit (tensor (config.expertMap e)) (config.expertMap e) p hj
  exact ⟨c, (hcs c).mpr ⟨e, he, hskip, hc⟩, hhit⟩

/-- That of one that is masked is not. -/
theorem not_staged (hfit : Fits config tpCount 2) {logical : ℕ} (hmask : config.shouldSkipExpert logical) (p : Proj)
    {j : ℕ} (hj : j < sliceCells config tpCount 2) :
    ∀ c ∈ (stage config (config.partition tpCount) i source).weights,
      ¬ c.Hits p (logical * sliceCells config tpCount 2 + j) := by
  intro c hc hhit
  obtain ⟨physical, -, hskip, hc⟩ := (mem_stage_weights hfit source c).mp hc
  obtain ⟨hsame, -⟩ := val_of_mem_stageCopies hfit hc hj hhit
  exact hskip (hsame ▸ hmask)

end Reads

/-! ## When all is right -/

section Right

variable {h : Headers Bf16 F32} {fp32Byte : F32 → ℕ → UInt8} {config : GeneralMOEConfig} {tpCount i : ℕ}
  {x : Extents config tpCount} {source : Source Bf16}

theorem sliceCells_of_empty {unit : ℕ} (hempty : config.intermediateSize = 0 ∨ config.hiddenSize = 0) :
    sliceCells config tpCount unit = 0 := by
  unfold sliceCells
  rcases hempty with h0 | h0
  · rw [h0, Nat.zero_div, Nat.zero_mul]
  · rw [h0, Nat.zero_div, Nat.mul_zero]

theorem bufferSize_of_empty (hempty : config.intermediateSize = 0 ∨ config.hiddenSize = 0) (p : Proj) :
    p.bufferSize (config.partition tpCount) = 0 := by
  rcases hempty with h0 | h0 <;> cases p <;>
    simp [Proj.bufferSize, requiredSize, Proj.rows, Proj.rowWeights, GeneralMOEConfig.partition, h0]

/-- Where no expert that is kept is mapped to a masked one, all is right. -/
theorem bootsRight_of_kept (hh : h.Lawful) (hb : h.Bounded) (hacc : Accepted config tpCount)
    (hkept : ∀ e < config.expertNum, ¬ config.shouldSkipExpert e → ¬ config.shouldSkipExpert (config.expertMap e)) :
    BootsRight h fp32Byte x source where
  weightsWritten i _ r hr cell hcell := by
    obtain ⟨p, a⟩ := cell
    obtain ⟨e, he, hskip, j, hj, rfl⟩ := (loadReads_spec hb hacc hr).1 _ hcell
    exact staged_of_kept (hacc.fits hacc.two_dvd) (fun e => (source.expert config e).weight)
      (mem_stage_weights (hacc.fits hacc.two_dvd) source) he (hkept e he hskip) p hj
  scalesWritten i _ r hr cell hcell := by
    obtain ⟨p, a⟩ := cell
    obtain ⟨e, he, hskip, j, hj, rfl⟩ := (loadReads_spec hb hacc hr).2 _ hcell
    exact staged_of_kept (hacc.fits dvd_rfl) (fun e => (source.expert config e).scale) (mem_stage_scales source) he
      (hkept e he hskip) p hj
  booted _ _ hboot _ hi e he hskip p _ ha := booted_byte hh hb hacc hboot hi he hskip (hkept e he hskip) p ha

/-- Experts of no size are always right. -/
theorem bootsRight_of_empty (hb : h.Bounded) (hacc : Accepted config tpCount)
    (hempty : config.intermediateSize = 0 ∨ config.hiddenSize = 0) : BootsRight h fp32Byte x source where
  weightsWritten i _ r hr cell hcell := by
    obtain ⟨e, -, -, j, hj, -⟩ := (loadReads_spec hb hacc hr).1 cell hcell
    rw [sliceCells_of_empty hempty] at hj
    exact absurd hj (Nat.not_lt_zero j)
  scalesWritten i _ r hr cell hcell := by
    obtain ⟨e, -, -, j, hj, -⟩ := (loadReads_spec hb hacc hr).2 cell hcell
    rw [sliceCells_of_empty hempty] at hj
    exact absurd hj (Nat.not_lt_zero j)
  booted _ _ _ _ _ _ _ _ p a ha := by
    rw [bufferSize_of_empty hempty] at ha
    exact absurd ha (Nat.not_lt_zero a)

/-- An expert that is kept while its logical expert is masked reads what was never written. -/
theorem not_bootsRight (hh : h.Lawful) (hacc : Accepted config tpCount) (hinter : config.intermediateSize ≠ 0)
    (hhidden : config.hiddenSize ≠ 0) {e : ℕ} (he : e < config.expertNum) (hskip : ¬ config.shouldSkipExpert e)
    (hmask : config.shouldSkipExpert (config.expertMap e)) : ¬ BootsRight h fp32Byte x source := by
  intro hright
  have hfit := hacc.fits hacc.two_dvd
  have hcount : 0 < tpCount := Nat.pos_of_dvd_of_pos hacc.whole (Nat.pos_of_ne_zero hinter)
  have hcells : 0 < sliceCells config tpCount 2 := by
    refine Nat.mul_pos (Nat.div_pos (Nat.le_of_dvd (Nat.pos_of_ne_zero hinter) hacc.whole) hcount) ?_
    exact Nat.div_pos (Nat.le_of_dvd (Nat.pos_of_ne_zero hhidden) hfit.hidden) Nat.two_pos
  obtain ⟨r, hr, hcell⟩ := gate_read hh hacc hcells he hskip
  obtain ⟨c, hc, hhit⟩ := hright.weightsWritten 0 hcount r hr _ hcell
  exact not_staged hfit hmask .gate hcells c hc hhit

/-- **Boot staging.** `load_weights` reads no cell that was not written, and leaves every expert that is kept with the
slice of the expert the map names, exactly when no expert that is kept is mapped to a masked one, or there are no
weights at all. -/
theorem bootsRight_iff (hh : h.Lawful) (hb : h.Bounded) (hacc : Accepted config tpCount) :
    BootsRight h fp32Byte x source ↔ config.intermediateSize = 0 ∨ config.hiddenSize = 0 ∨
      ∀ e < config.expertNum, ¬ config.shouldSkipExpert e → ¬ config.shouldSkipExpert (config.expertMap e) := by
  constructor
  · intro hright
    by_contra hbad
    simp only [not_or] at hbad
    obtain ⟨hinter, hhidden, hbad⟩ := hbad
    push Not at hbad
    obtain ⟨e, he, hskip, hmask⟩ := hbad
    exact not_bootsRight hh hacc hinter hhidden he (by simpa using hskip) hmask hright
  · rintro (h0 | h0 | hkept)
    · exact bootsRight_of_empty hb hacc (.inl h0)
    · exact bootsRight_of_empty hb hacc (.inr h0)
    · exact bootsRight_of_kept hh hb hacc hkept

variable (h fp32Byte x source) in
/-- Otherwise the packed rows of the expert are whatever the flat buffers held before. -/
theorem exists_unstaged [Inhabited Bf16] (hh : h.Lawful) (hb : h.Bounded) (hacc : Accepted config tpCount) {e : ℕ}
    (he : e < config.expertNum) (hskip : ¬ config.shouldSkipExpert e)
    (hmask : config.shouldSkipExpert (config.expertMap e)) (v : UInt8) (ram : Ram) :
    ∃ ram', Boots h fp32Byte x source ram ram' ∧ ∀ i < tpCount, ∀ p : Proj,
      ∀ a < scalesOff (p.rows (config.partition tpCount)) (p.rowWeights (config.partition tpCount)),
        ram' () (x.ptr (i, e, p) + a) = v := by
  obtain ⟨tmp, ram', htmp, hrun⟩ := exists_boots_from h fp32Byte x source ⟨fun _ _ => v, fun _ _ => default⟩ ram
  refine ⟨ram', ⟨tmp, fun i _ => ⟨_, htmp i⟩, hrun⟩, fun i hi p a ha => ?_⟩
  have hfit := hacc.fits hacc.two_dvd
  have hsize : a < p.bufferSize (config.partition tpCount) :=
    ha.trans_le ((Nat.le_add_right _ _).trans (Nat.le_add_right _ _))
  have hcell : a < sliceCells config tpCount 2 := by
    rw [← hfit.rows_mul p, Nat.mul_comm]
    exact ha
  rw [flat_byte hh hb hrun hi he hskip p hsize, bufferBytes, if_pos ha, hfit.rows_mul_div]
  exact (htmp i).1.eq_of_not_hits (not_staged hfit hmask p hcell)

end Right

/-! ## Experts that change places -/

/-- Three experts, of which the map exchanges the first two and the mask names the third. -/
def permuted : GeneralMOEConfig :=
  { twoExperts with
    expertNum := 3
    physicalToLogicalMap := some fun e => if e < 2 then 1 - e else e
    gpuExpertsMask := some fun e => e == 2 }

theorem permuted_accepted : Accepted permuted 2 := ⟨by decide, by rfl⟩

def permutedExtents : Extents permuted 2 where
  ptr k := pageSize * pageOf (2 * k.1 + k.2.1 / 2, k.2.1 % 2, k.2.2)
  aligned _ _ := Nat.dvd_mul_right _ _
  placed k hk k' hk' hne := by
    have hpage : ∀ p : Proj, p.extentBytes (permuted.partition 2) = pageSize := by
      intro p
      cases p <;> decide
    have hdiff : pageOf (2 * k.1 + k.2.1 / 2, k.2.1 % 2, k.2.2) ≠
        pageOf (2 * k'.1 + k'.2.1 / 2, k'.2.1 % 2, k'.2.2) := by
      intro heq
      have hsame := pageOf_injOn (Nat.mod_lt _ Nat.two_pos) (Nat.mod_lt _ Nat.two_pos) heq
      obtain ⟨i, e, p⟩ := k
      obtain ⟨i', e', p'⟩ := k'
      have he : e < 3 := hk.2
      have he' : e' < 3 := hk'.2
      simp only [Prod.mk.injEq] at hsame
      refine hne (Prod.ext ?_ (Prod.ext ?_ hsame.2.2)) <;> simp only <;> omega
    simp only [hpage]
    unfold pageSize
    omega

/-- Both experts that change places are kept, and all is right. -/
theorem bootsRight_iff_permuted : BootsRight bitHeaders bitByte permutedExtents
    (.perExpert fun e => ⟨fun _ a => UInt8.ofNat (16 * e + a), fun _ _ => 1⟩) :=
  (bootsRight_iff bitHeaders_lawful bitHeaders_bounded permuted_accepted).mpr (.inr (.inr (by decide)))

/-- Two experts whose ids the map exchanges, of which the mask names the first. -/
def exchanged : GeneralMOEConfig :=
  { twoExperts with physicalToLogicalMap := some fun e => 1 - e, gpuExpertsMask := some fun e => e == 0 }

theorem exchanged_accepted : Accepted exchanged 2 := ⟨by decide, by rfl⟩

def exchangedExtents : Extents exchanged 2 := ⟨twoExtents.ptr, twoExtents.aligned, twoExtents.placed⟩

/-- Expert 1 is kept and mapped to expert 0, which is masked: a cell is read that was never written, and the buffers of
expert 1 may hold any byte where the expert on disk has 7. -/
theorem bootsRight_fails_exchanged :
    ¬ BootsRight bitHeaders bitByte exchangedExtents (.perExpert fun _ => ⟨fun _ _ => 7, fun _ _ => 1⟩) ∧
    ∃ ram, Boots bitHeaders bitByte exchangedExtents (.perExpert fun _ => ⟨fun _ _ => 7, fun _ _ => 1⟩)
      (fun _ _ => 0) ram ∧ ram () (exchangedExtents.ptr (0, 1, .gate) + 0) = 0xCD := by
  have he : 1 < exchanged.expertNum := by decide
  have hskip : ¬ exchanged.shouldSkipExpert 1 := by decide
  have hmask : exchanged.shouldSkipExpert (exchanged.expertMap 1) := by decide
  refine ⟨not_bootsRight bitHeaders_lawful exchanged_accepted (by decide) (by decide) he hskip hmask, ?_⟩
  obtain ⟨ram, hboot, hbytes⟩ := exists_unstaged bitHeaders bitByte exchangedExtents
    (.perExpert fun _ => ⟨fun _ _ => 7, fun _ _ => 1⟩) bitHeaders_lawful bitHeaders_bounded exchanged_accepted he hskip
    hmask 0xCD fun _ _ => 0
  exact ⟨ram, hboot, hbytes 0 (by decide) .gate 0 (by decide)⟩

end ExpertServe.PackedInt4
