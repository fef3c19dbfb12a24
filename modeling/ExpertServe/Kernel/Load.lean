import ExpertServe.Kernel.PackedInt4
import Mathlib.Data.Nat.ModEq

/-!
# Loading a slice

After `load_weights` the buffers of partition `i` hold its slice of each staged expert: `cpuSlice` says which cells of
the expert these are. The packed bytes and the scales go the same way, with 2 weights to a byte and a group to a scale.

* `stageExpert_weights`, `stageExpert_scales`: the copies in the terms of one unit;
* `staged_cell`: the flat buffers after the first half;
* `loaded_weight`, `loaded_scale`: the buffers after both.
-/

namespace ExpertServe.PackedInt4

open Lib

variable {α Bf16 F32 : Type*}

/-! ## Sizes -/

/-- `unit` weights make a cell of every row: of the hidden axis, and of the slice of each of `tpCount` partitions. -/
structure Fits (config : GeneralMOEConfig) (tpCount unit : ℕ) : Prop where
  hidden : unit ∣ config.hiddenSize
  slice : unit ∣ config.intermediateSize / tpCount
  whole : tpCount ∣ config.intermediateSize

section Sizes

variable {config : GeneralMOEConfig} {tpCount unit : ℕ}

/-- The cells of one projection of a slice. -/
def sliceCells (config : GeneralMOEConfig) (tpCount unit : ℕ) : ℕ :=
  config.intermediateSize / tpCount * (config.hiddenSize / unit)

theorem Fits.inter (h : Fits config tpCount unit) : unit ∣ config.intermediateSize :=
  h.slice.trans (Nat.div_dvd_of_dvd h.whole)

theorem Fits.mul_div (h : Fits config tpCount unit) :
    config.intermediateSize / tpCount * config.hiddenSize / unit = sliceCells config tpCount unit :=
  Nat.mul_div_assoc _ h.hidden

/-- A slice of down has as many cells as one of gate or up. -/
theorem Fits.mul_div' (h : Fits config tpCount unit) :
    config.hiddenSize * (config.intermediateSize / tpCount / unit) = sliceCells config tpCount unit := by
  rw [← h.mul_div, Nat.mul_comm _ config.hiddenSize, Nat.mul_div_assoc _ h.slice]

/-- Sums of multiples of the rows split between the cells. -/
theorem add_mul_div {a b : ℕ} (ha : unit ∣ a) (hb : unit ∣ b) (m n : ℕ) :
    (m * a + n * b) / unit = m * (a / unit) + n * (b / unit) := by
  rw [Nat.add_div_of_dvd_right (ha.mul_left m), Nat.mul_div_assoc m ha, Nat.mul_div_assoc n hb]

end Sizes

/-- Cell `j` of a projection in the slice of partition `i`, as a cell of the expert. -/
def cpuSlice (config : GeneralMOEConfig) (tpCount i unit : ℕ) (tensor : Proj → ℕ → α) (p : Proj) (j : ℕ) : α :=
  match p with
  | .gate | .up => tensor p (i * sliceCells config tpCount unit + j)
  | .down =>
    let cols := config.intermediateSize / tpCount / unit
    tensor .down (j / cols * (config.intermediateSize / unit) + i * cols + j % cols)

/-! ## The first half -/

/-- The copies of one expert into the flat buffers, in cells. -/
def stageCopies (config : GeneralMOEConfig) (tpCount i unit : ℕ) (tensor : Proj → ℕ → α) (expertId : ℕ) :
    List (Copy Proj α) :=
  let cells := sliceCells config tpCount unit
  let cols := config.intermediateSize / tpCount / unit
  let gateUp (p : Proj) : Copy Proj α := ⟨p, expertId * cells, cells, fun j => tensor p (i * cells + j)⟩
  gateUp .gate :: gateUp .up :: (List.range config.hiddenSize).map fun col =>
    ⟨.down, expertId * cells + col * cols, cols,
      fun j => tensor .down (col * (config.intermediateSize / unit) + i * cols + j)⟩

section Stage

variable {config : GeneralMOEConfig} {tpCount i : ℕ}

theorem stageExpert_weights (h : Fits config tpCount 2) (src : Tensors Bf16) (e : ℕ) :
    (stageExpert config (config.partition tpCount) i src e).weights = stageCopies config tpCount i 2 src.weight e := by
  have hslice : 2 ∣ config.intermediateSize / tpCount * config.hiddenSize := h.hidden.mul_left _
  simp only [stageExpert, GeneralMOEConfig.partition, stageCopies, Nat.shiftRight_one, add_mul_div hslice h.slice,
    add_mul_div h.inter h.slice, Nat.mul_div_assoc _ hslice, h.mul_div]

theorem stageExpert_scales (src : Tensors Bf16) (e : ℕ) :
    (stageExpert config (config.partition tpCount) i src e).scales =
      stageCopies config tpCount i config.groupSize src.scale e := by
  simp only [stageExpert, GeneralMOEConfig.partition, stageCopies, sliceCells,
    Nat.mul_comm (config.hiddenSize / config.groupSize)]

/-- What a copy of expert `e'` brings to a cell of expert `e` of a flat buffer. -/
theorem val_of_mem_stageCopies {unit : ℕ} (h : Fits config tpCount unit) {tensor : Proj → ℕ → α} {e e' : ℕ}
    {c : Copy Proj α} (hc : c ∈ stageCopies config tpCount i unit tensor e') {p : Proj} {j : ℕ}
    (hj : j < sliceCells config tpCount unit) (hhit : c.Hits p (e * sliceCells config tpCount unit + j)) :
    e' = e ∧ c.val (e * sliceCells config tpCount unit + j - c.off) = cpuSlice config tpCount i unit tensor p j := by
  have hcells := h.mul_div'
  generalize hE : sliceCells config tpCount unit = E at *
  generalize hw : config.intermediateSize / tpCount / unit = w at *
  -- an expert's cells come after those of the experts before it
  have hexpert : ∀ {x : ℕ}, e' * E + x ≤ e * E + j → e * E + j < e' * E + E → e' = e := by
    intro x hlo hhi
    have hdiv : (e * E + j) / E = e := (piece_div_mod hj).1
    have hdiv' : (e * E + j) / E = e' := Nat.div_eq_of_lt_le (by omega) (by rw [Nat.succ_mul]; omega)
    exact hdiv'.symm.trans hdiv
  simp only [stageCopies, hE, hw, List.mem_cons, List.mem_map, List.mem_range] at hc
  obtain ⟨rfl, hlo, hhi⟩ := hhit
  rcases hc with rfl | rfl | ⟨col, hcol, rfl⟩
  · obtain rfl := hexpert (x := 0) hlo hhi
    simp only [cpuSlice, hE, Nat.add_sub_cancel_left, and_self]
  · obtain rfl := hexpert (x := 0) hlo hhi
    simp only [cpuSlice, hE, Nat.add_sub_cancel_left, and_self]
  · have hrow : col * w + w ≤ E := by
      rw [← hcells, ← Nat.succ_mul]
      exact Nat.mul_le_mul_right w hcol
    simp only at hlo hhi
    obtain rfl := hexpert hlo (by omega)
    have hdiv : j / w = col := Nat.div_eq_of_lt_le (by omega) (by rw [Nat.succ_mul]; omega)
    have hmod := Nat.div_add_mod' j w
    rw [hdiv] at hmod
    refine ⟨rfl, ?_⟩
    simp only [cpuSlice, hw, hdiv]
    congr 2
    omega

theorem exists_hit_stageCopies {unit : ℕ} (h : Fits config tpCount unit) (tensor : Proj → ℕ → α) (e : ℕ) (p : Proj)
    {j : ℕ} (hj : j < sliceCells config tpCount unit) :
    ∃ c ∈ stageCopies config tpCount i unit tensor e, c.Hits p (e * sliceCells config tpCount unit + j) := by
  have hcells := h.mul_div'
  unfold stageCopies
  generalize sliceCells config tpCount unit = E at *
  generalize config.intermediateSize / tpCount / unit = w at *
  cases p with
  | gate => exact ⟨_, List.mem_cons_self, rfl, Nat.le_add_right .., Nat.add_lt_add_left hj _⟩
  | up => exact ⟨_, List.mem_cons_of_mem _ List.mem_cons_self, rfl, Nat.le_add_right .., Nat.add_lt_add_left hj _⟩
  | down =>
    have hw : 0 < w := Nat.pos_of_ne_zero fun h0 => by simp [h0] at hcells; omega
    have hcol : j / w < config.hiddenSize := (Nat.div_lt_iff_lt_mul hw).mpr (hcells ▸ hj)
    have hdiv := Nat.div_add_mod' j w
    have hmod := Nat.mod_lt j hw
    refine ⟨_, List.mem_cons_of_mem _ (List.mem_cons_of_mem _ (List.mem_map_of_mem (List.mem_range.mpr hcol))),
      rfl, ?_, ?_⟩
    · simp only
      omega
    · simp only
      omega

/-- The flat buffers after the first half: each staged expert, at its logical id, has its slice. -/
theorem staged_cell {unit : ℕ} (h : Fits config tpCount unit) (tensor : ℕ → Proj → ℕ → α) {cs : List (Copy Proj α)}
    (hcs : ∀ c, c ∈ cs ↔ ∃ physical < config.expertNum, ¬ config.shouldSkipExpert (config.expertMap physical) ∧
      c ∈ stageCopies config tpCount i unit (tensor (config.expertMap physical)) (config.expertMap physical))
    {mem mem' : Proj → ℕ → α} (hrun : Runs cs mem mem') {physical : ℕ} (hphysical : physical < config.expertNum)
    (hskip : ¬ config.shouldSkipExpert (config.expertMap physical)) (p : Proj) {j : ℕ}
    (hj : j < sliceCells config tpCount unit) :
    mem' p (config.expertMap physical * sliceCells config tpCount unit + j) =
      cpuSlice config tpCount i unit (tensor (config.expertMap physical)) p j := by
  refine hrun.eq_of_agree ?_ fun c hc hhit => ?_
  · obtain ⟨c, hc, hhit⟩ :=
      exists_hit_stageCopies (i := i) h (tensor (config.expertMap physical)) (config.expertMap physical) p hj
    exact ⟨c, (hcs c).mpr ⟨physical, hphysical, hskip, hc⟩, hhit⟩
  · obtain ⟨physical', -, -, hc⟩ := (hcs c).mp hc
    obtain ⟨hsame, hval⟩ := val_of_mem_stageCopies h hc hj hhit
    rw [hval, hsame]

/-- What is staged, of the weights or of the scales: the copies for each expert that is not skipped. -/
theorem mem_stage {γ : Type*} (field : Work Proj Bf16 → List γ) (hnone : field Work.none = []) (source : Source Bf16)
    (c : γ) :
    c ∈ ((List.range config.expertNum).map fun physical =>
        if config.shouldSkipExpert (config.expertMap physical) then Work.none
        else stageExpert config (config.partition tpCount) i (source.expert config (config.expertMap physical))
          (config.expertMap physical)).flatMap field ↔
      ∃ physical < config.expertNum, ¬ config.shouldSkipExpert (config.expertMap physical) ∧
        c ∈ field (stageExpert config (config.partition tpCount) i
          (source.expert config (config.expertMap physical)) (config.expertMap physical)) := by
  simp only [List.flatMap_map, List.mem_flatMap, List.mem_range]
  refine exists_congr fun physical => and_congr_right fun _ => ?_
  split
  · next hskip => simp [hnone, hskip]
  · next hskip => simp [hskip]

theorem mem_stage_weights (h : Fits config tpCount 2) (source : Source Bf16) (c : Copy Proj UInt8) :
    c ∈ (stage config (config.partition tpCount) i source).weights ↔
      ∃ physical < config.expertNum, ¬ config.shouldSkipExpert (config.expertMap physical) ∧
        c ∈ stageCopies config tpCount i 2 (source.expert config (config.expertMap physical)).weight
          (config.expertMap physical) := by
  simp only [← stageExpert_weights h]
  exact mem_stage Work.weights rfl source c

theorem mem_stage_scales (source : Source Bf16) (c : Copy Proj Bf16) :
    c ∈ (stage config (config.partition tpCount) i source).scales ↔
      ∃ physical < config.expertNum, ¬ config.shouldSkipExpert (config.expertMap physical) ∧
        c ∈ stageCopies config tpCount i config.groupSize (source.expert config (config.expertMap physical)).scale
          (config.expertMap physical) := by
  simp only [← stageExpert_scales]
  exact mem_stage Work.scales rfl source c

end Stage

/-! ## The second half -/

/-- The copies of one worker into the buffer of an expert, in cells. -/
def rawCopies {κ : Type*} (dst : κ) (cols : ℕ) (src : ℕ → α) (rows : ℕ × ℕ) : List (Copy κ α) :=
  (List.range' rows.1 (rows.2 - rows.1)).map fun ni => ⟨dst, ni * cols, cols, fun j => src (ni * cols + j)⟩

theorem val_of_mem_rawCopies {κ : Type*} {dst k : κ} {cols : ℕ} {src : ℕ → α} {rows : ℕ × ℕ} {c : Copy κ α}
    (hc : c ∈ rawCopies dst cols src rows) {j : ℕ} (hhit : c.Hits k j) : dst = k ∧ c.val (j - c.off) = src j := by
  obtain ⟨ni, -, rfl⟩ := List.mem_map.mp hc
  obtain ⟨hk, hlo, -⟩ := hhit
  exact ⟨hk, congrArg src (Nat.add_sub_cancel' hlo)⟩

theorem exists_hit_rawCopies {κ : Type*} (dst : κ) {cols j : ℕ} (hcols : 0 < cols) (src : ℕ → α) {rows : ℕ × ℕ}
    (hrow : rows.1 ≤ j / cols ∧ j / cols < rows.2) : ∃ c ∈ rawCopies dst cols src rows, c.Hits dst j := by
  have hdiv := Nat.div_add_mod' j cols
  have hmod := Nat.mod_lt j hcols
  have hmem : j / cols ∈ List.range' rows.1 (rows.2 - rows.1) := List.mem_range'_1.mpr ⟨hrow.1, by omega⟩
  refine ⟨_, List.mem_map_of_mem hmem, rfl, ?_, ?_⟩
  · simp only
    omega
  · simp only
    omega

/-- The rows of a projection of a partition, and the weights in each. -/
def Proj.rows (tpc : GeneralMOEConfig) : Proj → ℕ
  | .gate | .up => tpc.intermediateSize
  | .down => tpc.hiddenSize

def Proj.rowWeights (tpc : GeneralMOEConfig) : Proj → ℕ
  | .gate | .up => tpc.hiddenSize
  | .down => tpc.intermediateSize

section Second

variable {h : Headers Bf16 F32} {tpc : GeneralMOEConfig}

/-- One list of gate and up tasks and one of down tasks: for each projection a task for each worker and expert. -/
theorem mem_projTasks {β : Type*} (tpc : GeneralMOEConfig) (task : Proj → ℕ → β) {w : β} :
    w ∈ (List.range (recommendedNth tpc.intermediateSize * tpc.expertNum)).flatMap (fun t =>
        [task .gate t, task .up t]) ++ (List.range (recommendedNth tpc.hiddenSize * tpc.expertNum)).map (task .down) ↔
      ∃ p : Proj, ∃ t < recommendedNth (p.rows tpc) * tpc.expertNum, w = task p t := by
  simp only [List.mem_append, List.mem_flatMap, List.mem_range, List.mem_cons, List.not_mem_nil, or_false, List.mem_map]
  constructor
  · rintro (⟨t, ht, rfl | rfl⟩ | ⟨t, ht, rfl⟩)
    · exact ⟨.gate, t, ht, rfl⟩
    · exact ⟨.up, t, ht, rfl⟩
    · exact ⟨.down, t, ht, rfl⟩
  · rintro ⟨_ | _ | _, t, ht, rfl⟩
    · exact .inl ⟨t, ht, .inl rfl⟩
    · exact .inl ⟨t, ht, .inr rfl⟩
    · exact .inr ⟨t, ht, rfl⟩

/-- The tasks of a partition. -/
theorem mem_loadTasks {tmp : Tensors Bf16} {w : Work (ℕ × Proj) F32} :
    w ∈ loadTasks h tpc tmp ↔ ∃ p : Proj, ∃ t < recommendedNth (p.rows tpc) * tpc.expertNum,
      w = loadTask h tpc tmp (p.rows tpc) (p.rowWeights tpc) (recommendedNth (p.rows tpc)) p t :=
  mem_projTasks tpc fun p => loadTask h tpc tmp (p.rows tpc) (p.rowWeights tpc) (recommendedNth (p.rows tpc)) p

/-- What the tasks copy, of the weights or of the scales: that of each worker for each expert that is not skipped. -/
theorem mem_loadWeights {γ : Type*} (field : Work (ℕ × Proj) F32 → List γ) (hnone : field Work.none = [])
    {tmp : Tensors Bf16} {c : γ} : c ∈ (loadTasks h tpc tmp).flatMap field ↔
      ∃ p : Proj, ∃ t < recommendedNth (p.rows tpc) * tpc.expertNum,
        ¬ tpc.shouldSkipExpert (t / recommendedNth (p.rows tpc)) ∧
        c ∈ field (fromRawMat h (t / recommendedNth (p.rows tpc), p) (p.rows tpc) (p.rowWeights tpc) tpc.groupSize
          (fun j => tmp.weight p
            (tpc.expertMap (t / recommendedNth (p.rows tpc)) * (p.rows tpc * p.rowWeights tpc / 2) + j))
          (fun j => tmp.scale p
            (tpc.expertMap (t / recommendedNth (p.rows tpc)) * (p.rows tpc * (p.rowWeights tpc / tpc.groupSize)) + j))
          (t % recommendedNth (p.rows tpc)) (recommendedNth (p.rows tpc))) := by
  simp only [List.mem_flatMap, mem_loadTasks]
  constructor
  · rintro ⟨_, ⟨p, t, ht, rfl⟩, hc⟩
    rw [loadTask] at hc
    split at hc
    · rw [hnone] at hc
      exact absurd hc List.not_mem_nil
    · next hskip => exact ⟨p, t, ht, hskip, hc⟩
  · rintro ⟨p, t, ht, hskip, hc⟩
    refine ⟨_, ⟨p, t, ht, rfl⟩, ?_⟩
    rw [loadTask, if_neg hskip]
    exact hc

theorem mem_loadWeights_weights {tmp : Tensors Bf16} {c : Copy (ℕ × Proj) UInt8} :
    c ∈ (loadWeights h tpc tmp).weights ↔ ∃ p : Proj, ∃ t < recommendedNth (p.rows tpc) * tpc.expertNum,
      ¬ tpc.shouldSkipExpert (t / recommendedNth (p.rows tpc)) ∧
      c ∈ rawCopies (t / recommendedNth (p.rows tpc), p) (p.rowWeights tpc / 2)
        (fun j => tmp.weight p
          (tpc.expertMap (t / recommendedNth (p.rows tpc)) * (p.rows tpc * p.rowWeights tpc / 2) + j))
        (h.splitRange (p.rows tpc) (t % recommendedNth (p.rows tpc)) (recommendedNth (p.rows tpc))) :=
  mem_loadWeights Work.weights rfl

theorem mem_loadWeights_scales {tmp : Tensors Bf16} {c : Copy (ℕ × Proj) F32} :
    c ∈ (loadWeights h tpc tmp).scales ↔ ∃ p : Proj, ∃ t < recommendedNth (p.rows tpc) * tpc.expertNum,
      ¬ tpc.shouldSkipExpert (t / recommendedNth (p.rows tpc)) ∧
      c ∈ rawCopies (t / recommendedNth (p.rows tpc), p) (p.rowWeights tpc / tpc.groupSize)
        (fun j => h.bf16ToFp32 (tmp.scale p
          (tpc.expertMap (t / recommendedNth (p.rows tpc)) * (p.rows tpc * (p.rowWeights tpc / tpc.groupSize)) + j)))
        (h.splitRange (p.rows tpc) (t % recommendedNth (p.rows tpc)) (recommendedNth (p.rows tpc))) :=
  mem_loadWeights Work.scales rfl

theorem recommendedNth_pos (n : ℕ) : 0 < recommendedNth n := Nat.lt_of_lt_of_le Nat.one_pos (Nat.le_max_left 1 _)

/-- The buffers after the second half: those of an expert that is not skipped hold what its flat slice held. -/
theorem loaded_cell (hh : h.Lawful) {cs : List (Copy (ℕ × Proj) α)} (cols : Proj → ℕ) (src : ℕ → Proj → ℕ → α)
    (hcs : ∀ c, c ∈ cs ↔ ∃ p : Proj, ∃ t < recommendedNth (p.rows tpc) * tpc.expertNum,
      ¬ tpc.shouldSkipExpert (t / recommendedNth (p.rows tpc)) ∧
      c ∈ rawCopies (t / recommendedNth (p.rows tpc), p) (cols p) (src (t / recommendedNth (p.rows tpc)) p)
        (h.splitRange (p.rows tpc) (t % recommendedNth (p.rows tpc)) (recommendedNth (p.rows tpc))))
    {mem mem' : ℕ × Proj → ℕ → α} (hrun : Runs cs mem mem') {e : ℕ} (he : e < tpc.expertNum)
    (hskip : ¬ tpc.shouldSkipExpert e) (p : Proj) {j : ℕ} (hj : j < p.rows tpc * cols p) :
    mem' (e, p) j = src e p j := by
  refine hrun.eq_of_agree ?_ fun c hc hhit => ?_
  · have hcols : 0 < cols p := Nat.pos_of_ne_zero fun h0 => by simp [h0] at hj
    have hrow : j / cols p < p.rows tpc := (Nat.div_lt_iff_lt_mul hcols).mpr hj
    -- the worker of the row, in the task of the expert
    obtain ⟨ith, hith, hrange⟩ := hh.covers (p.rows tpc) _ _ (recommendedNth_pos (p.rows tpc)) hrow
    obtain ⟨hdiv, hmod⟩ := piece_div_mod (t := e) hith
    obtain ⟨c, hc, hhit⟩ := exists_hit_rawCopies (e, p) hcols (src e p) hrange
    refine ⟨c, (hcs c).mpr ⟨p, e * recommendedNth (p.rows tpc) + ith, ?_, by rwa [hdiv], by rwa [hdiv, hmod]⟩, hhit⟩
    exact (piece_lt he hith).trans_eq (Nat.mul_comm tpc.expertNum (recommendedNth (p.rows tpc)))
  · obtain ⟨p', t, -, -, hc⟩ := (hcs c).mp hc
    obtain ⟨hk, hval⟩ := val_of_mem_rawCopies hc hhit
    obtain ⟨rfl, rfl⟩ := Prod.mk.inj hk
    exact hval

end Second

/-! ## Both halves -/

section Both

variable {h : Headers Bf16 F32} {config : GeneralMOEConfig} {tpCount i : ℕ} {source : Source Bf16}
  {store store' : Store F32}

/-- The rows of a slice have all its cells. -/
theorem Fits.rows_mul {unit : ℕ} (hfit : Fits config tpCount unit) (p : Proj) :
    p.rows (config.partition tpCount) * (p.rowWeights (config.partition tpCount) / unit) =
      sliceCells config tpCount unit := by
  cases p with
  | gate => rfl
  | up => rfl
  | down => exact hfit.mul_div'

theorem Fits.rows_mul_div {unit : ℕ} (hfit : Fits config tpCount unit) (p : Proj) :
    p.rows (config.partition tpCount) * p.rowWeights (config.partition tpCount) / unit =
      sliceCells config tpCount unit := by
  cases p with
  | gate => exact hfit.mul_div
  | up => exact hfit.mul_div
  | down => exact (Nat.mul_div_assoc _ hfit.slice).trans hfit.mul_div'

/-- **Loaded weights.** The buffers of partition `i` hold the slice of every staged expert. -/
theorem loaded_weight (hh : h.Lawful) (hfit : Fits config tpCount 2)
    (hload : Store.Loads h config tpCount source i store store')
    {e : ℕ} (he : e < config.expertNum) (hskip : ¬ config.shouldSkipExpert e)
    (hskip' : ¬ config.shouldSkipExpert (config.expertMap e)) (p : Proj) {j : ℕ}
    (hj : j < sliceCells config tpCount 2) :
    store'.weight (e, p) j = cpuSlice config tpCount i 2 (source.expert config (config.expertMap e)).weight p j := by
  obtain ⟨tmp₀, tmp, hstage, -, hrun, -⟩ := hload
  let tpc := config.partition tpCount
  have hcell : store'.weight (e, p) j = tmp.weight p (config.expertMap e * (p.rows tpc * p.rowWeights tpc / 2) + j) :=
    loaded_cell hh (fun p => p.rowWeights tpc / 2)
      (fun e p j => tmp.weight p (config.expertMap e * (p.rows tpc * p.rowWeights tpc / 2) + j))
      (fun _ => mem_loadWeights_weights) hrun he hskip p (hfit.rows_mul p ▸ hj)
  rw [hcell, hfit.rows_mul_div]
  exact staged_cell hfit (fun e => (source.expert config e).weight) (mem_stage_weights hfit source) hstage he hskip' p
    hj

/-- **Loaded scales.** -/
theorem loaded_scale (hh : h.Lawful) (hfit : Fits config tpCount config.groupSize)
    (hload : Store.Loads h config tpCount source i store store') {e : ℕ} (he : e < config.expertNum)
    (hskip : ¬ config.shouldSkipExpert e) (hskip' : ¬ config.shouldSkipExpert (config.expertMap e)) (p : Proj) {j : ℕ}
    (hj : j < sliceCells config tpCount config.groupSize) :
    store'.scale (e, p) j =
      h.bf16ToFp32
        (cpuSlice config tpCount i config.groupSize (source.expert config (config.expertMap e)).scale p j) := by
  obtain ⟨tmp₀, tmp, -, hstage, -, hrun⟩ := hload
  let tpc := config.partition tpCount
  have hcell : store'.scale (e, p) j =
      h.bf16ToFp32 (tmp.scale p (config.expertMap e * (p.rows tpc * (p.rowWeights tpc / config.groupSize)) + j)) :=
    loaded_cell hh (fun p => p.rowWeights tpc / config.groupSize)
      (fun e p j => h.bf16ToFp32 (tmp.scale p
        (config.expertMap e * (p.rows tpc * (p.rowWeights tpc / config.groupSize)) + j)))
      (fun _ => mem_loadWeights_scales) hrun he hskip p (hfit.rows_mul p ▸ hj)
  rw [hcell, hfit.rows_mul]
  exact congrArg h.bf16ToFp32 (staged_cell hfit (fun e => (source.expert config e).scale) (mem_stage_scales source)
    hstage he hskip' p hj)

end Both

end ExpertServe.PackedInt4
