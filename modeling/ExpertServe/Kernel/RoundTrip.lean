import ExpertServe.Kernel.Load
import Mathlib.Data.List.Perm.Basic

/-!
# Writing a slice back

`write_weight_scale_to_buffer` deals an expert out to the GPU ranks: with more partitions than ranks each rank takes
several whole slices, with fewer each slice is cut for several ranks. Either way the expert is cut in as many pieces as
the larger of the two counts, piece by piece the rows of gate and up and the columns of down.

* `writeWork`: the tasks of all partitions, as one job for each piece;
* `lays_expert`: pieces that lie where they should make the slice of every rank;
* `roundTrip`: after `load_weights` every cell of every rank's buffers is written once, with the rank's slice.
-/

namespace ExpertServe.PackedInt4

open Lib

variable {α Bf16 F32 : Type*}

/-! ## Tasks -/

/-- The tasks of one slice, kind by kind. -/
theorem flatMap_dispatch {κ β γ : Type*} (f : Work κ β → List γ) (downTasks : ℕ) (gate up down : ℕ → Work κ β)
    (gateScale upScale : Work κ β) :
    (List.range (numWeightTasks * 2 + downTasks + 2)).flatMap
        (fun t => f (dispatch downTasks gate up down gateScale upScale t)) =
      (List.range numWeightTasks).flatMap (fun t => f (gate t)) ++
        (List.range numWeightTasks).flatMap (fun t => f (up t)) ++
        (List.range downTasks).flatMap (fun t => f (down t)) ++ (f gateScale ++ f upScale) := by
  rw [show numWeightTasks * 2 + downTasks + 2 = numWeightTasks + numWeightTasks + downTasks + 1 + 1 by
    unfold numWeightTasks; omega]
  simp only [List.range_add, List.flatMap_append, List.flatMap_map, List.range_one, List.flatMap_singleton,
    Nat.add_zero, List.append_assoc]
  unfold dispatch numWeightTasks
  refine congrArg₂ _ (List.flatMap_congr fun t ht => ?_) (congrArg₂ _ (List.flatMap_congr fun t ht => ?_)
    (congrArg₂ _ (List.flatMap_congr fun t ht => ?_) (congrArg₂ _ ?_ ?_)))
  · rw [if_pos (List.mem_range.mp ht)]
  · have ht := List.mem_range.mp ht
    rw [if_neg (by omega), if_pos (by omega), Nat.add_sub_cancel_left]
  · have ht := List.mem_range.mp ht
    rw [if_neg (by omega), if_neg (by omega), if_pos (by omega), Nat.add_sub_cancel_left]
  · rw [if_neg (by omega), if_neg (by omega), if_neg (by omega), if_pos (by omega)]
  · rw [if_neg (by omega), if_neg (by omega), if_neg (by omega), if_neg (by omega)]

theorem le_chunks {total n : ℕ} (hn : 0 < n) : total ≤ n * ((total + n - 1) / n) := by
  have hdiv := Nat.div_add_mod (total + n - 1) n
  have hmod := Nat.mod_lt (total + n - 1) hn
  omega

theorem numDownTasks_pos (hiddenSize : ℕ) : 0 < numDownTasks hiddenSize :=
  Nat.lt_min.mpr ⟨Nat.lt_of_lt_of_le Nat.one_pos (Nat.le_max_left 1 _), by decide⟩

/-- The chunks of the rows of down are all its rows. -/
theorem flatMap_downTask_weights {κ β : Type*} (hiddenSize : ℕ) (weight : ℕ → Copy κ UInt8) (scale : ℕ → Copy κ β) :
    (List.range (numDownTasks hiddenSize)).flatMap (fun t => (downTask hiddenSize weight scale t).weights) =
      (List.range hiddenSize).map weight := by
  have hchunks : hiddenSize ≤ _ := le_chunks (numDownTasks_pos hiddenSize)
  rw [← flatMap_range_chunks hchunks, List.map_flatMap]
  rfl

theorem flatMap_downTask_scales {κ β : Type*} (hiddenSize : ℕ) (weight : ℕ → Copy κ UInt8) (scale : ℕ → Copy κ β) :
    (List.range (numDownTasks hiddenSize)).flatMap (fun t => (downTask hiddenSize weight scale t).scales) =
      (List.range hiddenSize).map scale := by
  have hchunks : hiddenSize ≤ _ := le_chunks (numDownTasks_pos hiddenSize)
  rw [← flatMap_range_chunks hchunks, List.map_flatMap]
  rfl

/-- Eight chunks, each rounded up to whole cache lines, are enough. -/
theorem le_weightChunkSize (bytes : ℕ) : bytes ≤ numWeightTasks * weightChunkSize bytes := by
  have h : bytes ≤ numWeightTasks * ((bytes + numWeightTasks - 1) / numWeightTasks) := le_chunks (by decide)
  refine h.trans (Nat.mul_le_mul_left _ ?_)
  unfold weightChunkSize
  omega

/-! ## One slice, all ranks -/

/-- Three kinds of pieces: of gate and up one after the other in the first buffer, of down side by side in the
second. -/
theorem lays_expert (gate up : ℕ → α) (down : ℕ → ℕ → α) (r a rows L w : ℕ)
    {G U D : ℕ → List (Copy (ℕ × GpuBuf) α)}
    (hG : ∀ s < r * a, Lays (G s) (slab (s / a, .w13) (s % a * L) L fun j => gate (s * L + j)))
    (hU : ∀ s < r * a, Lays (U s) (slab (s / a, .w13) (s % a * L + a * L) L fun j => up (s * L + j)))
    (hD : ∀ s < r * a, Lays (D s) (strips (s / a, .w2) rows (a * w) (s % a * w) w fun row j => down row (s * w + j))) :
    Lays ((List.range (r * a)).flatMap fun s => G s ++ U s ++ D s) fun (t, buf) p =>
      if t < r then
        match buf with
        | .w13 =>
          if p < a * L then some (gate (t * (a * L) + p))
          else if p < 2 * (a * L) then some (up (t * (a * L) + (p - a * L))) else none
        | .w2 => if p < rows * (a * w) then some (down (p / (a * w)) (t * (a * w) + p % (a * w))) else none
      else none := by
  have hgate := lays_pieces GpuBuf.w13 r 0 a L gate fun s hs => by simpa only [Nat.zero_add] using hG s hs
  have hup := lays_pieces GpuBuf.w13 r (a * L) a L up fun s hs => by simpa only [Nat.add_comm (a * L)] using hU s hs
  have hdown := lays_stripPieces GpuBuf.w2 r rows a w down hD
  have hgateUp := hgate.append hup (S := fun (t, buf) p =>
    if buf = .w13 ∧ t < r then
      if p < a * L then some (gate (t * (a * L) + p))
      else if p < 2 * (a * L) then some (up (t * (a * L) + (p - a * L))) else none
    else none) ?_
  · refine ((hgateUp.append hdown) ?_).perm ?_
    · rintro ⟨t, _ | _⟩ p
      · refine .inl ⟨?_, if_neg fun h => GpuBuf.noConfusion h.1⟩
        by_cases ht : t < r <;> simp [ht]
      · refine .inr ⟨?_, if_neg fun h => GpuBuf.noConfusion h.1⟩
        by_cases ht : t < r <;> simp [ht, dealtStrips]
    · refine .trans ?_ (List.flatMap_append_perm (List.range (r * a)) (fun s => G s ++ U s) D)
      exact (List.flatMap_append_perm (List.range (r * a)) G U).append_right _
  · rintro ⟨t, buf⟩ p
    simp only [dealt, Nat.zero_add, Nat.zero_le, true_and, Nat.sub_zero]
    by_cases hk : buf = .w13 ∧ t < r
    · by_cases hp : p < a * L
      · exact .inl (by simp [hk, hp])
      · exact .inr (by simp [hk, hp, Nat.le_of_not_lt hp, Nat.two_mul])
    · have hout : ∀ q : Prop, ¬ (buf = .w13 ∧ t < r ∧ q) := fun _ h => hk ⟨h.1, h.2.1⟩
      exact .inl ⟨by rw [if_neg hk, if_neg (hout _)], if_neg (hout _)⟩

/-! ## From partitions to ranks -/

section Ranks

variable {config : GeneralMOEConfig} {n t m unit : ℕ}

/-- `m` slices out of `t * m` make one out of `t`. -/
theorem inter_merge (hfit : Fits config (t * m) unit) (ht : 0 < t) :
    config.intermediateSize / t = m * (config.intermediateSize / (t * m)) := by
  refine Nat.div_eq_of_eq_mul_right ht ?_
  rw [← Nat.mul_assoc, Nat.mul_div_cancel' hfit.whole]

theorem Fits.merge (hfit : Fits config (t * m) unit) (ht : 0 < t) : Fits config t unit where
  hidden := hfit.hidden
  slice := by rw [inter_merge hfit ht]; exact hfit.slice.mul_left m
  whole := (Nat.dvd_mul_right t m).trans hfit.whole

theorem sliceCells_merge (hfit : Fits config (t * m) unit) (ht : 0 < t) :
    sliceCells config t unit = m * sliceCells config (t * m) unit := by
  rw [sliceCells, sliceCells, inter_merge hfit ht, Nat.mul_assoc]

theorem cols_merge (hfit : Fits config (t * m) unit) (ht : 0 < t) :
    config.intermediateSize / t / unit = m * (config.intermediateSize / (t * m) / unit) := by
  rw [inter_merge hfit ht, Nat.mul_div_assoc m hfit.slice]

/-- The slice of a rank, computed from the whole expert. -/
theorem Fits.inter_mul_div (hfit : Fits config t unit) :
    config.intermediateSize * config.hiddenSize / t / unit = sliceCells config t unit := by
  rw [Nat.mul_div_right_comm hfit.whole, hfit.mul_div]

/-- The region of the pieces is the slice of each rank. -/
theorem expertRegion_eq {r a L w : ℕ} (tensor : Proj → ℕ → α) (hL : a * L = sliceCells config r unit)
    (hw : a * w = config.intermediateSize / r / unit) (k : ℕ × GpuBuf) (p : ℕ) :
    (if k.1 < r then
      match k.2 with
      | .w13 =>
        if p < a * L then some (tensor .gate (k.1 * (a * L) + p))
        else if p < 2 * (a * L) then some (tensor .up (k.1 * (a * L) + (p - a * L))) else none
      | .w2 =>
        if p < config.hiddenSize * (a * w) then
          some (tensor .down (p / (a * w) * (config.intermediateSize / unit) + (k.1 * (a * w) + p % (a * w))))
        else none
    else none) = gpuSlice config r unit tensor k p := by
  obtain ⟨rank, buf⟩ := k
  have hrow : ∀ q : ℕ, (rank * (config.intermediateSize / r) + q / (config.hiddenSize / unit)) *
      (config.hiddenSize / unit) + q % (config.hiddenSize / unit) = rank * sliceCells config r unit + q := by
    intro q
    rw [Nat.add_mul, Nat.add_assoc, Nat.div_add_mod', sliceCells, Nat.mul_assoc]
  cases buf with
  | w13 => simp only [gpuSlice, sliceW13, hL, hrow]; rfl
  | w2 => simp only [gpuSlice, sliceW2, hw, Nat.add_assoc]

/-- A cell of a row of down is a cell of the slice. -/
theorem Fits.row_lt (hfit : Fits config n unit) {row j : ℕ} (hrow : row < config.hiddenSize)
    (hj : j < config.intermediateSize / n / unit) :
    row * (config.intermediateSize / n / unit) + j < sliceCells config n unit := by
  have hle := Nat.mul_le_mul_right (config.intermediateSize / n / unit) (Nat.succ_le_of_lt hrow)
  rw [hfit.mul_div', Nat.succ_mul] at hle
  omega

theorem cpuSlice_down (i : ℕ) (tensor : Proj → ℕ → α) (row : ℕ) {j : ℕ} (hj : j < config.intermediateSize / n / unit) :
    cpuSlice config n i unit tensor .down (row * (config.intermediateSize / n / unit) + j) =
      tensor .down (row * (config.intermediateSize / unit) + (i * (config.intermediateSize / n / unit) + j)) := by
  simp only [cpuSlice, (piece_div_mod hj).1, (piece_div_mod hj).2, Nat.add_assoc]

variable {tensor : Proj → ℕ → α} {T : ℕ → Proj → ℕ → α} {G U D : ℕ → List (Copy (ℕ × GpuBuf) α)} {r c k : ℕ}

/-- **Several partitions to a rank.** Each puts its slice at its place in the buffers of the rank. -/
theorem lays_oneRank (hr : 0 < r) (hfit : Fits config (r * m) unit)
    (hT : ∀ i < r * m, ∀ p, ∀ j < sliceCells config (r * m) unit, T i p j = cpuSlice config (r * m) i unit tensor p j)
    (hG : ∀ s < r * m, Lays (G s) (slab (s / m, .w13) (s % m * sliceCells config (r * m) unit)
      (sliceCells config (r * m) unit) (T s .gate)))
    (hU : ∀ s < r * m, Lays (U s) (slab (s / m, .w13)
      (s % m * sliceCells config (r * m) unit + m * sliceCells config (r * m) unit)
      (sliceCells config (r * m) unit) (T s .up)))
    (hD : ∀ s < r * m, Lays (D s) (strips (s / m, .w2) config.hiddenSize
      (m * (config.intermediateSize / (r * m) / unit)) (s % m * (config.intermediateSize / (r * m) / unit))
      (config.intermediateSize / (r * m) / unit)
      fun row j => T s .down (row * (config.intermediateSize / (r * m) / unit) + j))) :
    Lays ((List.range (r * m)).flatMap fun s => G s ++ U s ++ D s) (gpuSlice config r unit tensor) := by
  refine (lays_expert (tensor .gate) (tensor .up)
    (fun row x => tensor .down (row * (config.intermediateSize / unit) + x))
    r m config.hiddenSize (sliceCells config (r * m) unit) (config.intermediateSize / (r * m) / unit)
    (fun s hs => (hG s hs).congr (slab_congr fun j hj => hT s hs .gate j hj))
    (fun s hs => (hU s hs).congr (slab_congr fun j hj => hT s hs .up j hj))
    (fun s hs => (hD s hs).congr (strips_congr fun row hrow j hj => ?_))).congr
    (expertRegion_eq tensor (sliceCells_merge hfit hr).symm (cols_merge hfit hr).symm)
  rw [hT s hs .down _ (hfit.row_lt hrow hj), cpuSlice_down s tensor row hj]

/-- **Several ranks to a partition.** Each rank gets its part of the slice of the partition. -/
theorem lays_manyRanks (hc : 0 < c) (hfit : Fits config (c * k) unit)
    (hT : ∀ i < c, ∀ p, ∀ j < sliceCells config c unit, T i p j = cpuSlice config c i unit tensor p j)
    (hG : ∀ s < c * k, Lays (G s) (slab (s, .w13) 0 (sliceCells config (c * k) unit)
      fun j => T (s / k) .gate (s % k * sliceCells config (c * k) unit + j)))
    (hU : ∀ s < c * k, Lays (U s) (slab (s, .w13) (sliceCells config (c * k) unit) (sliceCells config (c * k) unit)
      fun j => T (s / k) .up (s % k * sliceCells config (c * k) unit + j)))
    (hD : ∀ s < c * k, Lays (D s) (strips (s, .w2) config.hiddenSize (config.intermediateSize / (c * k) / unit) 0
      (config.intermediateSize / (c * k) / unit)
      fun row j => T (s / k) .down (row * (config.intermediateSize / c / unit) +
        (s % k * (config.intermediateSize / (c * k) / unit) + j)))) :
    Lays ((List.range (c * k)).flatMap fun s => G s ++ U s ++ D s) (gpuSlice config (c * k) unit tensor) := by
  have hmerge := sliceCells_merge hfit hc
  have hcols := cols_merge hfit hc
  -- the part of a rank, inside the slice of its partition and as a piece of the expert
  have hpart : ∀ {x j s : ℕ}, s < c * k → j < x →
      s % k * x + j < k * x ∧ s / k * (k * x) + (s % k * x + j) = s * x + j := by
    intro x j s hs hj
    obtain ⟨-, -, hl, hpiece⟩ := piece_eq hs
    have hle := Nat.mul_le_mul_right x (Nat.succ_le_of_lt hl)
    rw [Nat.succ_mul] at hle
    refine ⟨by omega, ?_⟩
    conv_rhs => rw [hpiece]
    ring
  have hlays := lays_expert (tensor .gate) (tensor .up)
    (fun row x => tensor .down (row * (config.intermediateSize / unit) + x)) (c * k) 1 config.hiddenSize
    (sliceCells config (c * k) unit) (config.intermediateSize / (c * k) / unit) (G := G) (U := U) (D := D)
    (fun s hs => ?_) (fun s hs => ?_) fun s hs => ?_
  · rw [Nat.mul_one] at hlays
    exact hlays.congr (expertRegion_eq tensor (Nat.one_mul _) (Nat.one_mul _))
  all_goals
    rw [Nat.mul_one] at hs
    obtain ⟨-, hi, -, -⟩ := piece_eq hs
    simp only [Nat.div_one, Nat.mod_one, Nat.zero_mul, Nat.zero_add, Nat.one_mul]
  · refine (hG s hs).congr (slab_congr fun j hj => ?_)
    obtain ⟨hlt, hcell⟩ := hpart hs hj
    rw [hT _ hi .gate _ (hmerge ▸ hlt)]
    exact congrArg (tensor .gate) (hmerge ▸ hcell)
  · refine (hU s hs).congr (slab_congr fun j hj => ?_)
    obtain ⟨hlt, hcell⟩ := hpart hs hj
    rw [hT _ hi .up _ (hmerge ▸ hlt)]
    exact congrArg (tensor .up) (hmerge ▸ hcell)
  · refine (hD s hs).congr (strips_congr fun row hrow j hj => ?_)
    obtain ⟨hlt, hcell⟩ := hpart hs hj
    rw [← hcols] at hlt hcell
    rw [hT _ hi .down _ ((hfit.merge hc).row_lt hrow hlt), cpuSlice_down _ tensor row hlt, hcell]

end Ranks

/-! ## The tasks of a partition -/

theorem flatMap_const_nil {β γ : Type*} (l : List β) : l.flatMap (fun _ => ([] : List γ)) = [] :=
  List.flatMap_eq_nil_iff.mpr fun _ _ => rfl

section Tasks

variable {h : Headers Bf16 F32} {config : GeneralMOEConfig} {r c m k : ℕ}

/-- One slice of gate or up in chunks, and the rows of one slice of down: the copies of the packed bytes. -/
def sliceWeights (rank off upOff cells hiddenSize stride o w : ℕ) (gate up : ℕ → UInt8) (down : ℕ → ℕ → UInt8) :
    List (Copy (ℕ × GpuBuf) UInt8) :=
  (List.range numWeightTasks).flatMap (chunk (rank, .w13) off cells (weightChunkSize cells) gate) ++
    (List.range numWeightTasks).flatMap (chunk (rank, .w13) upOff cells (weightChunkSize cells) up) ++
    (List.range hiddenSize).map fun col => ⟨(rank, .w2), col * stride + o, w, down col⟩

theorem oneRank_weights (hr : 0 < r) (hfit : Fits config (r * m) 2) (s e : ℕ) (store : Store F32) :
    (writeToOneRank h s r (r * m) e config (config.partition (r * m)) store).weights =
      sliceWeights (s / m) (s % m * sliceCells config (r * m) 2)
        (s % m * sliceCells config (r * m) 2 + m * sliceCells config (r * m) 2) (sliceCells config (r * m) 2)
        config.hiddenSize (m * (config.intermediateSize / (r * m) / 2))
        (s % m * (config.intermediateSize / (r * m) / 2)) (config.intermediateSize / (r * m) / 2) (store.weight (e, .gate)) (store.weight (e, .up))
        fun col j => store.weight (e, .down) (col * (config.intermediateSize / (r * m) / 2) + j) := by
  simp only [writeToOneRank, Work.all, List.flatMap_map, flatMap_dispatch, flatMap_downTask_weights,
    GeneralMOEConfig.partition, Nat.mul_div_cancel_left m hr, hfit.mul_div, (hfit.merge hr).inter_mul_div,
    sliceCells_merge hfit hr, Nat.shiftRight_one, cols_merge hfit hr, List.append_nil, sliceWeights]

/-- The copies of the scales: one for each of gate and up, and one for each row of down. -/
def sliceScales (rank off upOff cells hiddenSize stride o w : ℕ) (gate up : ℕ → Bf16) (down : ℕ → ℕ → Bf16) :
    List (Copy (ℕ × GpuBuf) Bf16) :=
  ((List.range hiddenSize).map fun col => ⟨(rank, .w2), col * stride + o, w, down col⟩) ++
    ([⟨(rank, .w13), off, cells, gate⟩] ++ [⟨(rank, .w13), upOff, cells, up⟩])

theorem oneRank_scales (hr : 0 < r) (hfit : Fits config (r * m) config.groupSize) (s e : ℕ) (store : Store F32) :
    (writeToOneRank h s r (r * m) e config (config.partition (r * m)) store).scales =
      sliceScales (s / m) (s % m * sliceCells config (r * m) config.groupSize)
        (s % m * sliceCells config (r * m) config.groupSize + m * sliceCells config (r * m) config.groupSize)
        (sliceCells config (r * m) config.groupSize) config.hiddenSize
        (m * (config.intermediateSize / (r * m) / config.groupSize))
        (s % m * (config.intermediateSize / (r * m) / config.groupSize))
        (config.intermediateSize / (r * m) / config.groupSize) (fun j => h.fp32ToBf16 (store.scale (e, .gate) j))
        (fun j => h.fp32ToBf16 (store.scale (e, .up) j)) fun col j =>
          h.fp32ToBf16 (store.scale (e, .down) (col * (config.intermediateSize / (r * m) / config.groupSize) + j)) := by
  simp only [writeToOneRank, Work.all, List.flatMap_map, flatMap_dispatch, flatMap_downTask_scales, flatMap_const_nil,
    GeneralMOEConfig.partition, Nat.mul_div_cancel_left m hr, hfit.mul_div, (hfit.merge hr).inter_mul_div,
    sliceCells_merge hfit hr, cols_merge hfit hr, List.nil_append, sliceScales]

/-- The offset of a rank inside a row of down: a flat size divided by the number of rows. -/
theorem Fits.rowOffset {unit : ℕ} (hfit : Fits config (c * k) unit) (hH : 0 < config.hiddenSize) (l : ℕ) :
    l * sliceCells config (c * k) unit / config.hiddenSize = l * (config.intermediateSize / (c * k) / unit) := by
  rw [← hfit.mul_div', Nat.mul_left_comm, Nat.mul_div_cancel_left _ hH]

/-- The tasks of a partition that feeds several ranks, rank by rank. -/
theorem manyRanks_weights (hc : 0 < c) (hk : 0 < k) (hfit : Fits config (c * k) 2) (i e : ℕ) (store : Store F32) :
    (writeToManyRanks h i (c * k) c e config (config.partition c) store).weights = (List.range k).flatMap fun l =>
      sliceWeights (i * k + l) 0 (sliceCells config (c * k) 2) (sliceCells config (c * k) 2) config.hiddenSize
        (config.intermediateSize / (c * k) / 2) 0 (config.intermediateSize / (c * k) / 2)
        (fun j => store.weight (e, .gate) (l * sliceCells config (c * k) 2 + j))
        (fun j => store.weight (e, .up) (l * sliceCells config (c * k) 2 + j))
        fun col j => store.weight (e, .down)
          (col * (config.intermediateSize / c / 2) + (l * (config.intermediateSize / (c * k) / 2) + j)) := by
  have hslice : config.intermediateSize / c / k = config.intermediateSize / (c * k) := Nat.div_div_eq_div_mul ..
  have hpart : sliceCells config c 2 / k = sliceCells config (c * k) 2 := by
    rw [sliceCells_merge hfit hc, Nat.mul_div_cancel_left _ hk]
  simp only [writeToManyRanks, Work.all, List.flatMap_map, Nat.mul_div_cancel_left k hc]
  rw [flatMap_range_mul (fun l t => (manyRanksTask h i (c * k) c e config (config.partition c) store l t).weights)]
  simp only [manyRanksTask, flatMap_dispatch, flatMap_downTask_weights,
    GeneralMOEConfig.partition,
    Nat.mul_div_cancel_left k hc, (hfit.merge hc).mul_div, hfit.inter_mul_div, hpart, hslice, Nat.shiftRight_one,
    List.append_nil, sliceWeights]
  refine List.flatMap_congr fun l _ => congrArg _ (List.map_congr_left fun col hcol => ?_)
  have hH : 0 < config.hiddenSize := Nat.zero_lt_of_lt (List.mem_range.mp hcol)
  simp only [hfit.rowOffset hH, Nat.mul_div_assoc col (hfit.merge hc).slice, Nat.add_zero, Nat.add_assoc]

theorem manyRanks_scales (hc : 0 < c) (hk : 0 < k) (hfit : Fits config (c * k) config.groupSize) (i e : ℕ)
    (store : Store F32) :
    (writeToManyRanks h i (c * k) c e config (config.partition c) store).scales = (List.range k).flatMap fun l =>
      sliceScales (i * k + l) 0 (sliceCells config (c * k) config.groupSize)
        (sliceCells config (c * k) config.groupSize) config.hiddenSize (config.intermediateSize / (c * k) / config.groupSize) 0
        (config.intermediateSize / (c * k) / config.groupSize)
        (fun j => h.fp32ToBf16 (store.scale (e, .gate) (l * sliceCells config (c * k) config.groupSize + j)))
        (fun j => h.fp32ToBf16 (store.scale (e, .up) (l * sliceCells config (c * k) config.groupSize + j)))
        fun col j => h.fp32ToBf16 (store.scale (e, .down) (col * (config.intermediateSize / c / config.groupSize) +
          (l * (config.intermediateSize / (c * k) / config.groupSize) + j))) := by
  have hslice : config.intermediateSize / c / k = config.intermediateSize / (c * k) := Nat.div_div_eq_div_mul ..
  have hpart : sliceCells config c config.groupSize / k = sliceCells config (c * k) config.groupSize := by
    rw [sliceCells_merge hfit hc, Nat.mul_div_cancel_left _ hk]
  simp only [writeToManyRanks, Work.all, List.flatMap_map, Nat.mul_div_cancel_left k hc]
  rw [flatMap_range_mul (fun l t => (manyRanksTask h i (c * k) c e config (config.partition c) store l t).scales)]
  simp only [manyRanksTask, flatMap_dispatch, flatMap_downTask_scales, flatMap_const_nil, GeneralMOEConfig.partition,
    Nat.mul_div_cancel_left k hc, (hfit.merge hc).mul_div, hfit.inter_mul_div, hpart, hslice, List.nil_append,
    sliceScales]
  refine List.flatMap_congr fun l _ => congrArg (· ++ _) (List.map_congr_left fun col hcol => ?_)
  have hH : 0 < config.hiddenSize := Nat.zero_lt_of_lt (List.mem_range.mp hcol)
  simp only [hfit.rowOffset hH, Nat.add_zero, Nat.add_assoc]

end Tasks

/-! ## All partitions -/

section All

variable {h : Headers Bf16 F32} {config : GeneralMOEConfig} {r c m k unit : ℕ}

/-- The job of all partitions. -/
def writeWork (h : Headers Bf16 F32) (config : GeneralMOEConfig) (r c e : ℕ) (stores : ℕ → Store F32) :
    Work (ℕ × GpuBuf) Bf16 :=
  Work.all ((List.range c).map fun i =>
    if r ≤ c then writeToOneRank h i r c e config (config.partition c) (stores i)
    else writeToManyRanks h i r c e config (config.partition c) (stores i))

/-- The copies of the packed bytes of a slice lay its three parts. -/
theorem lays_oneRank_weights (hr : 0 < r) (hm : 0 < m) (hfit : Fits config (r * m) 2) (e : ℕ) (stores : ℕ → Store F32)
    {tensor : Proj → ℕ → UInt8}
    (hT : ∀ i < r * m, ∀ p, ∀ j < sliceCells config (r * m) 2,
      (stores i).weight (e, p) j = cpuSlice config (r * m) i 2 tensor p j) :
    Lays (writeWork h config r (r * m) e stores).weights (gpuSlice config r 2 tensor) := by
  simp only [writeWork, Work.all, List.flatMap_map, if_pos (Nat.le_mul_of_pos_right r hm), oneRank_weights hr hfit,
    sliceWeights]
  refine lays_oneRank hr hfit hT (fun s hs => ?_) (fun s hs => ?_) fun s hs => ?_
  · exact lays_chunks _ _ _ (le_weightChunkSize _)
  · exact lays_chunks _ _ _ (le_weightChunkSize _)
  · refine lays_rows _ _ _ ?_
    obtain ⟨-, -, hl, -⟩ := piece_eq hs
    rw [← Nat.succ_mul]
    exact Nat.mul_le_mul_right _ hl

theorem lays_manyRanks_weights (hc : 0 < c) (hk : 1 < k) (hfit : Fits config (c * k) 2) (e : ℕ)
    (stores : ℕ → Store F32) {tensor : Proj → ℕ → UInt8}
    (hT : ∀ i < c, ∀ p, ∀ j < sliceCells config c 2, (stores i).weight (e, p) j = cpuSlice config c i 2 tensor p j) :
    Lays (writeWork h config (c * k) c e stores).weights (gpuSlice config (c * k) 2 tensor) := by
  have hmany : ¬ c * k ≤ c := Nat.not_le_of_lt (Nat.lt_mul_iff_one_lt_right hc |>.mpr hk)
  simp only [writeWork, Work.all, List.flatMap_map, if_neg hmany, manyRanks_weights hc (Nat.zero_lt_of_lt hk) hfit]
  rw [← flatMap_range_mul, Nat.mul_comm k c]
  simp only [Nat.div_add_mod', sliceWeights]
  refine lays_manyRanks hc hfit hT (fun s hs => ?_) (fun s hs => ?_) fun s hs => ?_
  · exact lays_chunks _ _ _ (le_weightChunkSize _)
  · exact lays_chunks _ _ _ (le_weightChunkSize _)
  · exact lays_rows _ _ _ (Nat.zero_add _).le

theorem lays_oneRank_scales (hh : h.Lawful) (hr : 0 < r) (hm : 0 < m) (hfit : Fits config (r * m) config.groupSize)
    (e : ℕ) (stores : ℕ → Store F32) {tensor : Proj → ℕ → Bf16}
    (hT : ∀ i < r * m, ∀ p, ∀ j < sliceCells config (r * m) config.groupSize,
      (stores i).scale (e, p) j = h.bf16ToFp32 (cpuSlice config (r * m) i config.groupSize tensor p j)) :
    Lays (writeWork h config r (r * m) e stores).scales (gpuSlice config r config.groupSize tensor) := by
  have hback : ∀ i < r * m, ∀ p, ∀ j < sliceCells config (r * m) config.groupSize,
      h.fp32ToBf16 ((stores i).scale (e, p) j) = cpuSlice config (r * m) i config.groupSize tensor p j :=
    fun i hi p j hj => (congrArg h.fp32ToBf16 (hT i hi p j hj)).trans (hh.exact _)
  simp only [writeWork, Work.all, List.flatMap_map, if_pos (Nat.le_mul_of_pos_right r hm), oneRank_scales hr hfit,
    sliceScales]
  refine Lays.perm (lays_oneRank hr hfit hback (fun s hs => ?_) (fun s hs => ?_) fun s hs => ?_)
    (List.Perm.flatMap_left _ fun s _ => List.perm_append_comm)
  · exact lays_one ..
  · exact lays_one ..
  · refine lays_rows _ _ _ ?_
    obtain ⟨-, -, hl, -⟩ := piece_eq hs
    rw [← Nat.succ_mul]
    exact Nat.mul_le_mul_right _ hl

theorem lays_manyRanks_scales (hh : h.Lawful) (hc : 0 < c) (hk : 1 < k) (hfit : Fits config (c * k) config.groupSize)
    (e : ℕ) (stores : ℕ → Store F32) {tensor : Proj → ℕ → Bf16}
    (hT : ∀ i < c, ∀ p, ∀ j < sliceCells config c config.groupSize,
      (stores i).scale (e, p) j = h.bf16ToFp32 (cpuSlice config c i config.groupSize tensor p j)) :
    Lays (writeWork h config (c * k) c e stores).scales (gpuSlice config (c * k) config.groupSize tensor) := by
  have hback : ∀ i < c, ∀ p, ∀ j < sliceCells config c config.groupSize,
      h.fp32ToBf16 ((stores i).scale (e, p) j) = cpuSlice config c i config.groupSize tensor p j :=
    fun i hi p j hj => (congrArg h.fp32ToBf16 (hT i hi p j hj)).trans (hh.exact _)
  have hmany : ¬ c * k ≤ c := Nat.not_le_of_lt ((Nat.lt_mul_iff_one_lt_right hc).mpr hk)
  simp only [writeWork, Work.all, List.flatMap_map, if_neg hmany, manyRanks_scales hc (Nat.zero_lt_of_lt hk) hfit]
  rw [← flatMap_range_mul, Nat.mul_comm k c]
  simp only [Nat.div_add_mod', sliceScales]
  refine Lays.perm (lays_manyRanks hc hfit hback (fun s hs => ?_) (fun s hs => ?_) fun s hs => ?_)
    (List.Perm.flatMap_left _ fun s _ => List.perm_append_comm)
  · exact lays_one ..
  · exact lays_one ..
  · exact lays_rows _ _ _ (Nat.zero_add _).le

/-! ## Round trip -/

/-- The checks at construction make the group a multiple of 32. -/
theorem groupSize_of_construct {tpc : GeneralMOEConfig} (h : tpc.construct = .ok ()) :
    0 < tpc.groupSize ∧ 32 ∣ tpc.groupSize := by
  have hinit : tpc.derivedInit = .ok () := by
    cases hinit : tpc.derivedInit with
    | error msg => rw [GeneralMOEConfig.construct, hinit] at h; cases h
    | ok _ => rfl
  unfold GeneralMOEConfig.derivedInit at hinit
  split at hinit
  · cases hinit
  · next hgs =>
    push Not at hgs
    exact ⟨Nat.pos_of_ne_zero hgs.1, Nat.dvd_of_mod_eq_zero hgs.2⟩

/-- Sizes that divide as they should make whole cells of bytes and of groups, for either count. -/
theorem fits_of_dvd {gpuTpCount cpuTpCount n : ℕ} (hn : n ∣ max cpuTpCount gpuTpCount)
    (hunit : unit ∣ config.groupSize) (hhidden : config.groupSize ∣ config.hiddenSize)
    (hinter : config.groupSize * max cpuTpCount gpuTpCount ∣ config.intermediateSize) : Fits config n unit where
  hidden := hunit.trans hhidden
  slice := by
    refine hunit.trans (Nat.dvd_div_of_mul_dvd ?_)
    rw [Nat.mul_comm]
    exact (Nat.mul_dvd_mul_left _ hn).trans hinter
  whole := hn.trans ((Nat.dvd_mul_left _ _).trans hinter)

theorem dvd_max {a b : ℕ} (ha : 0 < a) (hb : 0 < b) (h : a ∣ b ∨ b ∣ a) : a ∣ max a b := by
  rcases h with h | h
  · rwa [Nat.max_eq_right (Nat.le_of_dvd hb h)]
  · rw [Nat.max_eq_left (Nat.le_of_dvd ha h)]

/-- A call with the right arrays, for an expert there is, streams every partition. -/
theorem writeWeightScaleToBuffer_eq (moe : TpMoe F32) (hloaded : moe.weightsLoaded) {e : ℕ}
    (he : e < moe.config.expertNum) (gpuTpCount : ℕ) :
    moe.writeWeightScaleToBuffer h gpuTpCount e ⟨gpuTpCount, gpuTpCount, gpuTpCount, gpuTpCount⟩ =
      .ok (writeWork h moe.config gpuTpCount moe.tpCount e moe.stores) := by
  have hpart : ∀ i, writeWeightsToBuffer h i gpuTpCount moe.tpCount e moe.config (moe.config.partition moe.tpCount)
      (moe.stores i) = .ok (if gpuTpCount ≤ moe.tpCount then
        writeToOneRank h i gpuTpCount moe.tpCount e moe.config (moe.config.partition moe.tpCount) (moe.stores i)
      else
        writeToManyRanks h i gpuTpCount moe.tpCount e moe.config (moe.config.partition moe.tpCount) (moe.stores i)) := by
    intro i
    have hthere : ¬ (moe.config.partition moe.tpCount).expertNum ≤ e := Nat.not_le_of_lt he
    rw [writeWeightsToBuffer, if_neg hthere]
    split <;> rfl
  have hmap : ∀ (f : ℕ → Work (ℕ × GpuBuf) Bf16) (l : List ℕ),
      l.mapM (fun i => (.ok (f i) : Except String (Work (ℕ × GpuBuf) Bf16))) = .ok (l.map f) :=
    fun f l => List.mapM_pure
  simp only [TpMoe.writeWeightScaleToBuffer, hloaded, not_true_eq_false, if_false, ne_eq, or_self, hpart, hmap]
  rfl

/-- A rank's buffers get each cell once, in any order of the copies, with the rank's slice. -/
structure Streams (work : Work (ℕ × GpuBuf) Bf16) (config : GeneralMOEConfig) (gpuTpCount : ℕ) (disk : Tensors Bf16) :
    Prop where
  weights : Lays work.weights (gpuSlice config gpuTpCount 2 disk.weight)
  scales : Lays work.scales (gpuSlice config gpuTpCount config.groupSize disk.scale)

theorem writeWork_streams (hh : h.Lawful) {cpuTpCount gpuTpCount : ℕ} (hcpu : 0 < cpuTpCount) (hgpu : 0 < gpuTpCount)
    (hcounts : cpuTpCount ∣ gpuTpCount ∨ gpuTpCount ∣ cpuTpCount) (htwo : 2 ∣ config.groupSize)
    (hhidden : config.groupSize ∣ config.hiddenSize)
    (hinter : config.groupSize * max cpuTpCount gpuTpCount ∣ config.intermediateSize) {source : Source Bf16}
    {stores₀ stores : ℕ → Store F32}
    (hload : ∀ i < cpuTpCount, Store.Loads h config cpuTpCount source i (stores₀ i) (stores i)) {e : ℕ}
    (he : e < config.expertNum) (hskip : ¬ config.shouldSkipExpert e)
    (hskip' : ¬ config.shouldSkipExpert (config.expertMap e)) :
    Streams (writeWork h config gpuTpCount cpuTpCount e stores) config gpuTpCount
      (source.expert config (config.expertMap e)) := by
  have hcpuMax := dvd_max hcpu hgpu hcounts
  have hweight := fits_of_dvd hcpuMax htwo hhidden hinter
  have hscale := fits_of_dvd hcpuMax dvd_rfl hhidden hinter
  have hT : ∀ i < cpuTpCount, ∀ p, ∀ j < sliceCells config cpuTpCount 2, (stores i).weight (e, p) j =
      cpuSlice config cpuTpCount i 2 (source.expert config (config.expertMap e)).weight p j :=
    fun i hi p j hj => loaded_weight hh hweight (hload i hi) he hskip hskip' p hj
  have hS : ∀ i < cpuTpCount, ∀ p, ∀ j < sliceCells config cpuTpCount config.groupSize, (stores i).scale (e, p) j =
      h.bf16ToFp32
        (cpuSlice config cpuTpCount i config.groupSize (source.expert config (config.expertMap e)).scale p j) :=
    fun i hi p j hj => loaded_scale hh hscale (hload i hi) he hskip hskip' p hj
  by_cases hle : gpuTpCount ≤ cpuTpCount
  · obtain ⟨m, rfl⟩ : gpuTpCount ∣ cpuTpCount :=
      hcounts.elim (fun hdvd => (Nat.le_antisymm hle (Nat.le_of_dvd hgpu hdvd)).symm ▸ dvd_rfl) id
    have hm : 0 < m := Nat.pos_of_mul_pos_left hcpu
    exact ⟨lays_oneRank_weights hgpu hm hweight e stores hT, lays_oneRank_scales hh hgpu hm hscale e stores hS⟩
  · obtain ⟨k, rfl⟩ : cpuTpCount ∣ gpuTpCount :=
      hcounts.elim id fun hdvd => absurd (Nat.le_of_dvd hcpu hdvd) hle
    have hk : 1 < k := by
      by_contra hk
      exact hle (by simpa using Nat.mul_le_mul_left cpuTpCount (Nat.le_of_not_lt hk))
    have hgpuMax : cpuTpCount * k ∣ max cpuTpCount (cpuTpCount * k) := by
      rw [Nat.max_eq_right (Nat.le_of_not_le hle)]
    exact ⟨lays_manyRanks_weights hcpu hk (fits_of_dvd hgpuMax htwo hhidden hinter) e stores hT,
      lays_manyRanks_scales hh hcpu hk (fits_of_dvd hgpuMax dvd_rfl hhidden hinter) e stores hS⟩

/-- **Round trip.** For counts of which one divides the other, and sizes that divide into groups for the larger of them:
after `load_weights` a call for a staged expert writes each cell of the buffers of every rank exactly once and nothing
else, and in whatever order its copies are done the buffers hold the rank's slice of the expert on disk. -/
theorem roundTrip (hh : h.Lawful) {moe moe' : TpMoe F32} {source : Source Bf16} {gpuTpCount : ℕ}
    (hcpu : 0 < moe.tpCount) (hgpu : 0 < gpuTpCount) (hcounts : moe.tpCount ∣ gpuTpCount ∨ gpuTpCount ∣ moe.tpCount)
    (hok : (moe.config.partition moe.tpCount).construct = .ok ())
    (hhidden : moe.config.groupSize ∣ moe.config.hiddenSize)
    (hinter : moe.config.groupSize * max moe.tpCount gpuTpCount ∣ moe.config.intermediateSize)
    (hload : moe.Loads h source moe') {e : ℕ} (he : e < moe.config.expertNum) (hskip : ¬ moe.config.shouldSkipExpert e)
    (hskip' : ¬ moe.config.shouldSkipExpert (moe.config.expertMap e)) :
    ∃ work, moe'.writeWeightScaleToBuffer h gpuTpCount e ⟨gpuTpCount, gpuTpCount, gpuTpCount, gpuTpCount⟩ = .ok work ∧
      (∀ k p, work.weights.countP (fun c => c.Hits k p) =
        if k.1 < gpuTpCount ∧ p < bufCells moe.config gpuTpCount 2 k.2 then 1 else 0) ∧
      (∀ k p, work.scales.countP (fun c => c.Hits k p) =
        if k.1 < gpuTpCount ∧ p < bufCells moe.config gpuTpCount moe.config.groupSize k.2 then 1 else 0) ∧
      let disk := source.expert moe.config (moe.config.expertMap e)
      (∀ mem mem', Runs work.weights mem mem' → ∀ k p,
        mem' k p = (gpuSlice moe.config gpuTpCount 2 disk.weight k p).getD (mem k p)) ∧
      ∀ mem mem', Runs work.scales mem mem' → ∀ k p,
        mem' k p = (gpuSlice moe.config gpuTpCount moe.config.groupSize disk.scale k p).getD (mem k p) := by
  obtain ⟨stores, rfl, hload⟩ := hload
  have htwo : 2 ∣ moe.config.groupSize := (by decide : 2 ∣ 32).trans (groupSize_of_construct hok).2
  have hstreams := writeWork_streams hh hcpu hgpu hcounts htwo hhidden hinter hload he hskip hskip'
  refine ⟨_, writeWeightScaleToBuffer_eq { moe with stores, weightsLoaded := true } rfl he gpuTpCount, fun k p => ?_,
    fun k p => ?_, fun mem mem' hrun k p => ?_,
    fun mem mem' hrun k p => ?_⟩
  · simpa only [gpuSlice_isSome] using hstreams.weights.countP_eq k p
  · simpa only [gpuSlice_isSome] using hstreams.scales.countP_eq k p
  · exact hrun.eq_of_lays hstreams.weights k p
  · exact hrun.eq_of_lays hstreams.scales k p

/-- `load_weights` always leaves something. -/
theorem exists_loads (tmp₀ : Tensors Bf16) (source : Source Bf16) (moe : TpMoe F32) :
    ∃ moe', moe.Loads h source moe' := by
  have hstore : ∀ i, ∃ store, Store.Loads h moe.config moe.tpCount source i (moe.stores i) store := by
    intro i
    let tpc := moe.config.partition moe.tpCount
    obtain ⟨weight, hweight⟩ := exists_runs (stage moe.config tpc i source).weights tmp₀.weight
    obtain ⟨scale, hscale⟩ := exists_runs (stage moe.config tpc i source).scales tmp₀.scale
    obtain ⟨weight', hweight'⟩ := exists_runs (loadWeights h tpc ⟨weight, scale⟩).weights (moe.stores i).weight
    obtain ⟨scale', hscale'⟩ := exists_runs (loadWeights h tpc ⟨weight, scale⟩).scales (moe.stores i).scale
    exact ⟨⟨weight', scale'⟩, tmp₀, ⟨weight, scale⟩, hweight, hscale, hweight', hscale'⟩
  choose stores hstores using hstore
  exact ⟨_, stores, rfl, fun i _ => hstores i⟩

/-- Headers by the bits: a bf16 is the upper half of an fp32, and each worker takes as many rows, rounded up. -/
def bitHeaders : Headers (BitVec 16) (BitVec 32) where
  bf16ToFp32 x := x.setWidth 32 <<< 16
  fp32ToBf16 y := (y >>> 16).setWidth 16
  splitRange n ith nth :=
    let per := (n + nth - 1) / nth
    (min (ith * per) n, min (ith * per + per) n)

theorem bitHeaders_lawful : bitHeaders.Lawful where
  exact x := by
    show ((x.setWidth 32 <<< 16) >>> 16).setWidth 16 = x
    ext i hi
    have hlt : i < 32 := by omega
    have hlt' : 16 + i < 32 := by omega
    simp [hlt, hlt', BitVec.getLsbD_eq_getElem hi]
  covers n nth row hnth hrow := by
    have hle : n ≤ nth * ((n + nth - 1) / nth) := le_chunks hnth
    show ∃ ith < nth, min (ith * ((n + nth - 1) / nth)) n ≤ row ∧
      row < min (ith * ((n + nth - 1) / nth) + (n + nth - 1) / nth) n
    generalize (n + nth - 1) / nth = per at *
    have hper : 0 < per := Nat.pos_of_ne_zero fun h0 => by simp [h0] at hle; omega
    have hdiv := Nat.div_add_mod' row per
    have hmod := Nat.mod_lt row hper
    exact ⟨row / per, (Nat.div_lt_iff_lt_mul hper).mpr (by omega), by omega, by omega⟩

/-- One expert of 64 by 32 weights in groups of 32, on one partition. -/
def oneExpert : TpMoe (BitVec 32) where
  config := ⟨1, 32, 64, 32, false, none, none⟩
  tpCount := 1
  weightsLoaded := false
  stores := fun _ => ⟨fun _ _ => 0, fun _ _ => 0⟩

/-- Two ranks get the expert of one partition. -/
theorem roundTrip_twoRanks :
    ∃ moe', oneExpert.Loads bitHeaders (.perExpert fun _ => ⟨fun _ _ => 7, fun _ _ => 1⟩) moe' ∧
    ∃ work, moe'.writeWeightScaleToBuffer bitHeaders 2 0 ⟨2, 2, 2, 2⟩ = .ok work ∧
      work.weights.countP (fun c => c.Hits (1, .w13) 1023) = 1 ∧
      ∀ mem mem', Runs work.weights mem mem' → mem' (1, .w13) 1023 = 7 := by
  obtain ⟨moe', hload⟩ := exists_loads (h := bitHeaders) ⟨fun _ _ => 0, fun _ _ => 0⟩
    (.perExpert fun _ => ⟨fun _ _ => 7, fun _ _ => 1⟩) oneExpert
  obtain ⟨work, hwork, hcount, -, hweights, -⟩ := roundTrip (e := 0) bitHeaders_lawful (by decide) (by decide : 0 < 2)
    (by decide) (by rfl) (by decide) (by decide) hload (by decide) (by decide) (by decide)
  exact ⟨moe', hload, work, hwork, hcount (1, .w13) 1023, fun mem mem' hrun => hweights mem mem' hrun (1, .w13) 1023⟩

end All

end ExpertServe.PackedInt4
