import ExpertServe.Kernel.StreamLayout

/-!
# Which gathers load what the load path loads

`stream_experts` checks the row pitches of w2 and nothing else, and each of its kernels is right for some sizes only.

* `rows_of_w13`, `columns_of_w2`, `rows_of_w13Scales`, `groups_of_w2Scales`: the partitions fill slots that are whole
  on the load path;
* `kW13Weights_size`, `four_dvd_of_kW13Scales`, `four_dvd_of_kW2Scales`: what follows for the sizes when a kernel stays
  within the listed slots;
* `streamExperts_loads_iff`: a gather that is accepted loads the listed slots exactly when its sizes fit, or it has
  nothing to load.
-/

namespace ExpertServe.Gather

open Lib

variable {F32 Bf16 α : Type*}

/-! ## What a gather needs of its sizes -/

section Needs

variable {sel : List ℤ} {nExp blocks slot e : ℕ} {ptrs : ℕ → HostRegion F32} {store : CpuStore F32}
  {float2bfloat16 : F32 → Bf16} {sz : Sizes}

theorem lt_of_concatRows_isSome {nTp rows n c : ℕ} {part : ℕ → ℕ → ℕ → α}
    (h : (concatRows nTp rows part n c).isSome) : n < nTp * rows := by
  unfold concatRows at h
  split at h
  · next hn => exact (Nat.div_lt_iff_lt_mul (by omega)).mp hn.1
  · exact absurd h Bool.false_ne_true

theorem lt_of_concatCols_isSome {nTp cols r c : ℕ} {part : ℕ → ℕ → ℕ → α}
    (h : (concatCols nTp cols part r c).isSome) : c < nTp * cols := by
  unfold concatCols at h
  split at h
  · next hc => exact (Nat.div_lt_iff_lt_mul (by omega)).mp hc.1
  · exact absurd h Bool.false_ne_true

/-- Every scale is somewhere in the interleaved slot. -/
theorem exists_interleaveScales_eq {β : Type*} {rows cols n c : ℕ} (scales : ℕ → ℕ → β) (hn : n < rows)
    (hc : c < cols) : ∃ q < rows * cols, interleaveScales rows cols scales q = scales n c := by
  by_cases hfour : 4 ∣ cols
  · exact ⟨_, (strip_place hfour hn hc).1, interleaveScales_cell scales hfour hn⟩
  · refine ⟨c * rows + n, ?_, ?_⟩
    · exact (piece_lt hc hn).trans_eq (Nat.mul_comm cols rows)
    · obtain ⟨hdiv, hmod⟩ := piece_div_mod (t := c) hn
      unfold interleaveScales
      rw [if_neg fun h => hfour (Nat.dvd_of_mod_eq_zero h), Nat.div_one, hdiv, hmod, Nat.mod_one, Nat.mul_one,
        Nat.add_zero]

/-- The partitions hold all rows of gate, if the load path has a value for the last of them. -/
theorem rows_of_whole {gate up : ℕ → ℕ → ℕ → α} {c : ℕ} (hmoe : 0 < sz.moe)
    (h : (gateOverUp sz.moe (concatRows sz.nTp sz.tpMoe gate) (concatRows sz.nTp sz.tpMoe up) (sz.moe - 1) c).isSome) :
    sz.moe = sz.nTp * sz.tpMoe := by
  unfold gateOverUp at h
  rw [if_pos (by omega)] at h
  have hlt := lt_of_concatRows_isSome h
  have hle : sz.nTp * sz.tpMoe ≤ sz.moe := Nat.mul_div_le sz.moe sz.nTp
  omega

theorem rows_of_w13 (hmoe : 0 < sz.moe) (hhidden : 0 < sz.hidden / 2)
    (hwhole : ∀ q < sz.w13Cells, (sz.loadedW13 store e q).isSome) : sz.moe = sz.nTp * sz.tpMoe := by
  have hq : (sz.moe - 1) * (sz.hidden / 2) < sz.w13Cells := Nat.mul_lt_mul_of_pos_right (by omega) hhidden
  have hcell := hwhole _ hq
  unfold Sizes.loadedW13 flat at hcell
  rw [Nat.mul_div_cancel _ hhidden] at hcell
  exact rows_of_whole hmoe hcell

theorem rows_of_w13Scales (hmoe : 0 < sz.moe) (hgroups : 0 < sz.hidden / sz.group)
    (hwhole : ∀ q < sz.w13ScaleCells, (sz.loadedW13Scales float2bfloat16 store e q).isSome) :
    sz.moe = sz.nTp * sz.tpMoe := by
  unfold Sizes.loadedW13Scales at hwhole
  obtain ⟨q, hq, heq⟩ := exists_interleaveScales_eq (gateOverUp sz.moe
    (concatRows sz.nTp sz.tpMoe fun tp r c =>
      float2bfloat16 ((store 1 tp e).float (r * (sz.hidden / sz.group) + c)))
    (concatRows sz.nTp sz.tpMoe fun tp r c =>
      float2bfloat16 ((store 3 tp e).float (r * (sz.hidden / sz.group) + c))))
    (show sz.moe - 1 < 2 * sz.moe by omega) hgroups
  have hcell := hwhole q hq
  rw [heq] at hcell
  exact rows_of_whole hmoe hcell

/-- The rows of the partitions fill the rows of w2. -/
theorem columns_of_w2 (hhidden : 0 < sz.hidden) (hwhole : ∀ q < sz.w2Cells, (sz.loadedW2 store e q).isSome) :
    sz.nTp * (sz.tpMoe / 2) = sz.moe / 2 := by
  have hle : sz.nTp * (sz.tpMoe / 2) ≤ sz.moe / 2 :=
    (Nat.mul_div_le_mul_div_assoc sz.nTp sz.tpMoe 2).trans (Nat.div_le_div_right (Nat.mul_div_le sz.moe sz.nTp))
  by_cases hrow : sz.moe / 2 = 0
  · omega
  have hq : sz.moe / 2 - 1 < sz.w2Cells := by
    calc sz.moe / 2 - 1 < 1 * (sz.moe / 2) := by omega
      _ ≤ sz.w2Cells := Nat.mul_le_mul_right _ hhidden
  have hcell := hwhole _ hq
  unfold Sizes.loadedW2 flat at hcell
  rw [Nat.mod_eq_of_lt (by omega)] at hcell
  have hlt := lt_of_concatCols_isSome hcell
  omega

theorem Sizes.groups_tpMoe (sz : Sizes) : sz.tpMoe / sz.group = sz.moe / sz.group / sz.nTp := by
  unfold Sizes.tpMoe
  rw [Nat.div_div_eq_div_mul, Nat.div_div_eq_div_mul, Nat.mul_comm]

/-- The groups of the partitions are all groups of w2. -/
theorem groups_of_w2Scales (hhidden : 0 < sz.hidden)
    (hwhole : ∀ q < sz.w2ScaleCells, (sz.loadedW2Scales float2bfloat16 store e q).isSome) :
    sz.moe / sz.group = sz.nTp * (sz.tpMoe / sz.group) := by
  have hle : sz.nTp * (sz.tpMoe / sz.group) ≤ sz.moe / sz.group := by
    rw [sz.groups_tpMoe]
    exact Nat.mul_div_le _ _
  by_cases hgroups : sz.moe / sz.group = 0
  · omega
  unfold Sizes.loadedW2Scales at hwhole
  obtain ⟨q, hq, heq⟩ := exists_interleaveScales_eq (concatCols sz.nTp (sz.tpMoe / sz.group) fun tp r c =>
    float2bfloat16 ((store 5 tp e).float (r * (sz.tpMoe / sz.group) + c))) hhidden
    (show sz.moe / sz.group - 1 < sz.moe / sz.group by omega)
  have hcell := hwhole q hq
  rw [heq] at hcell
  have hlt := lt_of_concatCols_isSome hcell
  omega

/-- A kernel that lays the listed slots writes nothing beyond the last of them. -/
theorem lt_of_lays {rows total size : ℕ} {body : ℕ → ℕ → ℕ → ℕ → Copy Unit α} {cell : ℕ → ℕ → Option α}
    (hblocks : 0 < blocks) (he : listed sel slot = some e)
    (hlast : ∀ slot', (listed sel slot').isSome → slot' ≤ slot)
    (hlays : Lays (launch blocks rows sel total body) (slotRegion () size sel cell)) (row i p : ℕ) (hrow : row < rows)
    (hi : i < total) (hhit : (body slot e row i).Hits () p) : p < (slot + 1) * size := by
  by_contra hge
  have hmem : body slot e row i ∈ launch blocks rows sel total body :=
    (mem_launch hblocks).mpr ⟨slot, e, he, row, hrow, i, hi, rfl⟩
  exact hlays.not_hits (slotRegion_ge hlast (by omega)) _ hmem hhit

/-- The row-blocks that `k_w13_weights` writes fill a slot. -/
theorem kW13Weights_size {v : ℕ} (hblocks : 0 < blocks) (hnTp : 0 < sz.nTp) (he : listed sel slot = some e)
    (hlast : ∀ slot', (listed sel slot').isSome → slot' ≤ slot)
    (h : Gathered sz.w13Cells sel (sz.loadedW13 store)
      (kW13Weights ptrs sel sz.nTp nExp v (v * 2 * sz.nTp) blocks)) : sz.w13Cells = 16 * (2 * sz.nTp * v) := by
  have hlays := h.lays
  unfold kW13Weights at hlays
  -- the place of a vector, in terms of its row-block
  have hplace : ∀ slot blk i, 16 * (slot * (v * 2 * sz.nTp) + (blk / sz.nTp * sz.nTp + blk % sz.nTp) * v + i) =
      slot * (16 * (2 * sz.nTp * v)) + 16 * (blk * v + i) := fun slot blk i => by
    rw [Nat.div_add_mod']
    ring
  apply Nat.le_antisymm
  · by_contra hlt
    have hq : sz.w13Cells - 1 < sz.w13Cells := by omega
    have hcell : (slotRegion () sz.w13Cells sel (sz.loadedW13 store) ()
        (slot * sz.w13Cells + (sz.w13Cells - 1))).isSome := by
      rw [slotRegion_cell he hq]
      exact h.whole slot e he _ hq
    obtain ⟨c, hc, hhit⟩ := hlays.exists_hit hcell
    obtain ⟨slot', e', he', blk, hblk, i, hi, rfl⟩ := (mem_launch hblocks).mp hc
    obtain ⟨-, -, hto⟩ := hhit
    dsimp only at hto
    rw [hplace] at hto
    have hvec : blk * v + i < 2 * sz.nTp * v := piece_lt hblk hi
    have hslot : slot' ≤ slot := hlast slot' (by rw [he']; rfl)
    have hle : (slot + 1) * sz.w13Cells ≤ (slot + 1) * (16 * (2 * sz.nTp * v)) := by
      calc (slot + 1) * sz.w13Cells ≤ slot' * (16 * (2 * sz.nTp * v)) + 16 * (2 * sz.nTp * v) := by
            rw [Nat.succ_mul slot]
            omega
        _ ≤ slot * (16 * (2 * sz.nTp * v)) + 16 * (2 * sz.nTp * v) :=
            Nat.add_le_add_right (Nat.mul_le_mul_right _ hslot) _
        _ = (slot + 1) * (16 * (2 * sz.nTp * v)) := (Nat.succ_mul slot _).symm
    exact hlt (Nat.le_of_mul_le_mul_left hle (Nat.succ_pos slot))
  · by_cases hv : v = 0
    · simp [hv]
    -- the last vector of the last row-block of the last slot
    have hend : (2 * sz.nTp - 1) * v + (v - 1) + 1 = 2 * sz.nTp * v := by
      have hlastRow : 2 * sz.nTp = 2 * sz.nTp - 1 + 1 := by omega
      rw [hlastRow, Nat.succ_mul (2 * sz.nTp - 1), ← hlastRow]
      omega
    have hlt := lt_of_lays hblocks he hlast hlays (2 * sz.nTp - 1) (v - 1)
      (slot * (16 * (2 * sz.nTp * v)) + (16 * (2 * sz.nTp * v) - 1)) (by omega) (by omega)
      ⟨rfl, by dsimp only; rw [hplace]; omega, by dsimp only; rw [hplace]; omega⟩
    have hle : (slot + 1) * (16 * (2 * sz.nTp * v)) ≤ (slot + 1) * sz.w13Cells := by
      rw [Nat.succ_mul slot (16 * (2 * sz.nTp * v))]
      omega
    exact Nat.le_of_mul_le_mul_left hle (Nat.succ_pos slot)

/-- Groups that do not come by four are interleaved beyond the end of the slot. -/
theorem strip_overflow {rows cols : ℕ} (hrows : 2 ≤ rows) (hfour : ¬ 4 ∣ cols) :
    rows * cols ≤ ((cols - 1) / 4 * rows + (rows - 1)) * 4 + (cols - 1) % 4 := by
  obtain ⟨k, b, hb, rfl⟩ : ∃ k b, b < 3 ∧ cols = 4 * k + (b + 1) :=
    ⟨cols / 4, cols % 4 - 1, by omega, by omega⟩
  have hdiv : (4 * k + (b + 1) - 1) / 4 = k := by omega
  have hmod : (4 * k + (b + 1) - 1) % 4 = b := by omega
  have hlast : rows * (b + 1) ≤ (rows - 1) * 4 + b := by
    rcases (by omega : b = 0 ∨ b = 1 ∨ b = 2) with rfl | rfl | rfl <;> omega
  rw [hdiv, hmod]
  calc rows * (4 * k + (b + 1)) = k * rows * 4 + rows * (b + 1) := by ring
    _ ≤ k * rows * 4 + ((rows - 1) * 4 + b) := Nat.add_le_add_left hlast _
    _ = (k * rows + (rows - 1)) * 4 + b := by ring

/-- The last task of a run of rows of `cols` tasks each. -/
theorem last_task {rows cols : ℕ} (hrows : 0 < rows) (hcols : 0 < cols) :
    (rows - 1) * cols + (cols - 1) < rows * cols ∧ ((rows - 1) * cols + (cols - 1)) / cols = rows - 1 ∧
      (rows - 1) * cols + (cols - 1) - (rows - 1) * cols = cols - 1 := by
  exact ⟨piece_lt (Nat.sub_one_lt_of_lt hrows) (Nat.sub_one_lt_of_lt hcols), (piece_div_mod (by omega)).1, by omega⟩

/-- `k_w13_scales` stays in the listed slots only if the groups come by four. -/
theorem four_dvd_of_kW13Scales (hblocks : 0 < blocks) (hnTp : 0 < sz.nTp) (he : listed sel slot = some e)
    (hlast : ∀ slot', (listed sel slot').isSome → slot' ≤ slot) (hmoe : 0 < sz.moe)
    (hrows : sz.moe = sz.nTp * sz.tpMoe) {cell : ℕ → ℕ → Option Bf16}
    (hlays : Lays (kW13Scales float2bfloat16 ptrs sel sz.nTp nExp sz.moe (sz.hidden / sz.group) sz.tpMoe
      (2 * sz.moe * (sz.hidden / sz.group)) blocks) (slotRegion () sz.w13ScaleCells sel cell)) :
    4 ∣ sz.hidden / sz.group := by
  unfold kW13Scales Sizes.w13ScaleCells at hlays
  generalize sz.hidden / sz.group = g at *
  by_contra hfour
  have hg : 0 < g := Nat.pos_of_ne_zero fun h0 => hfour (h0 ▸ Nat.dvd_zero 4)
  have hm : 0 < sz.tpMoe := Nat.pos_of_ne_zero fun h0 => by rw [h0] at hrows; omega
  obtain ⟨hi, hr, hc⟩ := last_task hm hg
  have hdiv : (2 * sz.nTp - 1) / sz.nTp = 1 := Nat.div_eq_of_lt_le (by omega) (by omega)
  have hmod : (2 * sz.nTp - 1) % sz.nTp = sz.nTp - 1 := by
    rw [Nat.mod_eq_sub_mod (by omega), Nat.mod_eq_of_lt (by omega)]
    omega
  -- the last row of up
  have hn : 1 * sz.moe + (sz.nTp - 1) * sz.tpMoe + (sz.tpMoe - 1) = 2 * sz.moe - 1 := by
    have hpart : (sz.nTp - 1) * sz.tpMoe + sz.tpMoe = sz.moe := by
      rw [← Nat.succ_mul (sz.nTp - 1), hrows]
      congr 1
      omega
    omega
  have hlt := lt_of_lays hblocks he hlast hlays (2 * sz.nTp - 1) _ (slot * (2 * sz.moe * g) +
    (((g - 1) >>> 2) * (2 * sz.moe * 4) + (2 * sz.moe - 1) * 4 + ((g - 1) &&& 3))) (by omega) hi
    ⟨rfl, by dsimp only; rw [hr, hc, hdiv, hmod, hn], by dsimp only; rw [hr, hc, hdiv, hmod, hn]; omega⟩
  have hover := strip_overflow (show 2 ≤ 2 * sz.moe by omega) hfour
  rw [(shiftRight_and _).1, (shiftRight_and _).2, Nat.succ_mul slot, ← Nat.mul_assoc ((g - 1) / 4),
    ← Nat.add_mul] at hlt
  omega

/-- `k_w2_scales` stays in the listed slots only if the groups come by four, or there is one row of them. -/
theorem four_dvd_of_kW2Scales (hblocks : 0 < blocks) (hnTp : 0 < sz.nTp) (he : listed sel slot = some e)
    (hlast : ∀ slot', (listed sel slot').isSome → slot' ≤ slot) (hhidden : 2 ≤ sz.hidden) {g : ℕ}
    (hgroups : sz.moe / sz.group = sz.nTp * g) {cell : ℕ → ℕ → Option Bf16}
    (hlays : Lays (kW2Scales float2bfloat16 ptrs sel sz.nTp nExp sz.hidden g (sz.hidden * (sz.moe / sz.group)) blocks)
      (slotRegion () sz.w2ScaleCells sel cell)) : 4 ∣ sz.moe / sz.group := by
  unfold kW2Scales Sizes.w2ScaleCells at hlays
  rw [hgroups] at hlays ⊢
  by_contra hfour
  have hg : 0 < g := Nat.pos_of_ne_zero fun h0 => hfour (by rw [h0]; exact Nat.dvd_zero 4)
  obtain ⟨hi, hr, hc⟩ := last_task (show 0 < sz.hidden by omega) hg
  obtain ⟨hlt', -, -⟩ := last_task hnTp hg
  -- the last group of the last partition
  have hlastGroup : (sz.nTp - 1) * g + (g - 1) = sz.nTp * g - 1 := by
    have hpart : (sz.nTp - 1) * g + g = sz.nTp * g := by
      rw [← Nat.succ_mul (sz.nTp - 1)]
      congr 1
      omega
    omega
  have hlt := lt_of_lays hblocks he hlast hlays (sz.nTp - 1) _ (slot * (sz.hidden * (sz.nTp * g)) +
    (((sz.nTp * g - 1) >>> 2) * (sz.hidden * 4) + (sz.hidden - 1) * 4 + ((sz.nTp * g - 1) &&& 3))) (by omega) hi
    ⟨rfl, by dsimp only; rw [hr, hc, hlastGroup], by dsimp only; rw [hr, hc, hlastGroup]; omega⟩
  have hover := strip_overflow hhidden hfour
  rw [(shiftRight_and _).1, (shiftRight_and _).2, Nat.succ_mul slot, ← Nat.mul_assoc ((sz.nTp * g - 1) / 4),
    ← Nat.add_mul] at hlt
  omega

end Needs

/-! ## Accepted gathers -/

section Accepted

variable {sel : List ℤ} {nExp blocks : ℕ} {store : CpuStore F32} {float2bfloat16 : F32 → Bf16} {sz : Sizes}

/-- What a gather that is accepted has been checked for, and its launches. -/
theorem streamExperts_eq_some {ptrs : ℕ → HostRegion F32} {job : GatherJob Bf16}
    (h : streamExperts float2bfloat16 ptrs sel nExp sz blocks = some job) :
    0 < sz.nTp ∧ 0 < sz.group ∧ 16 ∣ sz.tpMoe / 2 ∧ 16 ∣ sz.moe / 2 ∧
      job =
        { w13 := kW13Weights ptrs sel sz.nTp nExp (sz.tpMoe * sz.hidden / 2 / 16)
            (sz.tpMoe * sz.hidden / 2 / 16 * 2 * sz.nTp) blocks
          w2 := kW2Weights ptrs sel sz.nTp nExp sz.hidden (sz.tpMoe / 2 / 16) (sz.moe / 2 / 16)
            (sz.hidden * (sz.moe / 2)) blocks
          w13Scales := kW13Scales float2bfloat16 ptrs sel sz.nTp nExp sz.moe (sz.hidden / sz.group) sz.tpMoe
            (2 * sz.moe * (sz.hidden / sz.group)) blocks
          w2Scales := kW2Scales float2bfloat16 ptrs sel sz.nTp nExp sz.hidden (sz.moe / sz.group / sz.nTp)
            (sz.hidden * (sz.moe / sz.group)) blocks } := by
  unfold streamExperts at h
  split at h
  · exact absurd h.symm (Option.some_ne_none job)
  · next hzero =>
    dsimp only at h
    split at h
    · next hpitch =>
      exact ⟨by omega, by omega, Nat.dvd_of_mod_eq_zero hpitch.1, Nat.dvd_of_mod_eq_zero hpitch.2,
        (Option.some.inj h).symm⟩
    · exact absurd h.symm (Option.some_ne_none job)

/-- Sizes that fit give gathers that load. -/
theorem loads_of_fits {job : GatherJob Bf16} (hblocks : 0 < blocks) (hsel : ∀ e ∈ sel, e < nExp)
    (h : streamExperts float2bfloat16 (buildPointerTable store sz.nTp nExp) sel nExp sz blocks = some job)
    (hfits : sz.Fits) : job.Loads float2bfloat16 store sel sz := by
  obtain ⟨hnTp, hgroup, hsrc, hdst, rfl⟩ := streamExperts_eq_some h
  have hexp : ∀ slot e, listed sel slot = some e → e < nExp := fun slot e he => by
    exact_mod_cast hsel e (mem_of_listed he)
  have hrows : sz.moe = sz.nTp * sz.tpMoe := (Nat.mul_div_cancel' hfits.rows).symm
  have hvectors : 16 * (sz.tpMoe * sz.hidden / 2 / 16) = sz.tpMoe * (sz.hidden / 2) := by
    rw [hfits.bytes]
    exact Nat.mul_div_cancel' hfits.vectors
  have hu : sz.tpMoe / 2 = 16 * (sz.tpMoe / 2 / 16) := (Nat.mul_div_cancel' hsrc).symm
  have hcolumns : sz.moe / 2 = sz.nTp * (16 * (sz.tpMoe / 2 / 16)) := by rw [← hu, hfits.columns]
  have hdstVec : sz.moe / 2 / 16 = sz.nTp * (sz.tpMoe / 2 / 16) := by
    rw [hcolumns, Nat.mul_left_comm, Nat.mul_div_cancel_left _ (by decide)]
  have hgroups : sz.moe / sz.group = sz.nTp * (sz.moe / sz.group / sz.nTp) := (Nat.mul_div_cancel' hfits.groups).symm
  refine ⟨kW13Weights_gathered hblocks hexp hrows hvectors, ?_,
    kW13Scales_gathered hblocks hexp hrows hfits.hiddenByFour,
    kW2Scales_gathered hblocks hexp sz.groups_tpMoe hgroups hfits.moeByFour⟩
  dsimp only
  rw [hdstVec]
  exact kW2Weights_gathered hblocks hexp hu hcolumns

/-- With no cell in any slot, no kernel has a task. -/
theorem loads_of_empty {ptrs : ℕ → HostRegion F32} {job : GatherJob Bf16} (hblocks : 0 < blocks)
    (h : streamExperts float2bfloat16 ptrs sel nExp sz blocks = some job) (hempty : sz.Empty) :
    job.Loads float2bfloat16 store sel sz := by
  obtain ⟨hnTp, hgroup, hsrc, hdst, rfl⟩ := streamExperts_eq_some h
  have htotals : sz.tpMoe * sz.hidden / 2 / 16 = 0 ∧ sz.hidden * (sz.tpMoe / 2 / 16) = 0 ∧
      sz.tpMoe * (sz.hidden / sz.group) = 0 ∧ sz.hidden * (sz.moe / sz.group / sz.nTp) = 0 := by
    have hcells : sz.w13Cells = 0 ∧ sz.w2Cells = 0 ∧ sz.w13ScaleCells = 0 ∧ sz.w2ScaleCells = 0 :=
      ⟨hempty.w13, hempty.w2, hempty.w13Scales, hempty.w2Scales⟩
    simp only [Sizes.w13Cells, Sizes.w2Cells, Sizes.w13ScaleCells, Sizes.w2ScaleCells, Nat.mul_eq_zero] at hcells
    by_cases hhidden : sz.hidden = 0
    · simp [hhidden]
    have hle : sz.tpMoe ≤ sz.moe := Nat.div_le_self sz.moe sz.nTp
    by_cases hmoe : sz.moe = 0
    · have hm : sz.tpMoe = 0 := by omega
      simp [hmoe, hm]
    -- one hidden unit and one row, too few for a byte or a group
    obtain ⟨hw13, hw2, hw13S, hw2S⟩ := hcells
    have hone : sz.hidden = 1 := by omega
    have hm : sz.tpMoe ≤ 1 := by omega
    have hgroups : sz.hidden / sz.group = 0 := by omega
    have hgroups2 : sz.moe / sz.group = 0 := by omega
    have hmh : sz.tpMoe * sz.hidden ≤ 1 := by rw [hone]; omega
    refine ⟨by omega, ?_, ?_, ?_⟩
    · rw [show sz.tpMoe / 2 / 16 = 0 by omega, Nat.mul_zero]
    · rw [hgroups, Nat.mul_zero]
    · rw [hgroups2, Nat.zero_div, Nat.mul_zero]
  exact ⟨launch_zero hblocks htotals.1 hempty.w13, launch_zero hblocks htotals.2.1 hempty.w2,
    launch_zero hblocks htotals.2.2.1 hempty.w13Scales, launch_zero hblocks htotals.2.2.2 hempty.w2Scales⟩

/-- An odd hidden size would leave half a row over. -/
theorem bytes_of_vectors {m h : ℕ} (hsrc : 16 ∣ m / 2) (hvectors : 16 * (m * h / 2 / 16) = m * (h / 2)) :
    m * h / 2 = m * (h / 2) := by
  obtain hpair | hpair := Nat.mod_two_eq_zero_or_one h
  · have heven : h = 2 * (h / 2) := by omega
    have hmh : m * h = 2 * (m * (h / 2)) := by
      conv_lhs => rw [heven]
      ring
    omega
  · have hodd : h = 2 * (h / 2) + 1 := by omega
    have hmh : m * h = 2 * (m * (h / 2)) + m := by
      conv_lhs => rw [hodd]
      ring
    omega

/-- Rows of no bytes: then there is one row, and it has no group. -/
theorem empty_of_oneHidden (hnTp : 0 < sz.nTp) (hsrc : 16 ∣ sz.tpMoe / 2) (hone : sz.hidden = 1) (hmoe : 0 < sz.moe)
    (hcolumns : sz.nTp * (sz.tpMoe / 2) = sz.moe / 2)
    (hsize : sz.w13Cells = 16 * (2 * sz.nTp * (sz.tpMoe * sz.hidden / 2 / 16)))
    (hfour : 0 < sz.hidden / sz.group → 4 ∣ sz.hidden / sz.group) : sz.Empty := by
  have hv : sz.tpMoe * sz.hidden / 2 / 16 = 0 := by
    have hzero : sz.w13Cells = 0 := by simp [Sizes.w13Cells, hone]
    rw [hzero] at hsize
    by_contra hv
    have := Nat.mul_pos (Nat.mul_pos (by decide : 0 < 2) hnTp) (Nat.pos_of_ne_zero hv)
    omega
  rw [hone, Nat.mul_one] at hv
  have hm : sz.tpMoe / 2 = 0 := by omega
  rw [hm, Nat.mul_zero] at hcolumns
  have hmoe1 : sz.moe = 1 := by omega
  have hgroups : sz.hidden / sz.group = 0 := by
    by_contra hpos
    have hle : sz.hidden / sz.group ≤ sz.hidden := Nat.div_le_self _ _
    have := Nat.le_of_dvd (Nat.pos_of_ne_zero hpos) (hfour (Nat.pos_of_ne_zero hpos))
    omega
  have hgroups2 : sz.moe / sz.group = 0 := by rw [hmoe1, ← hone]; exact hgroups
  refine ⟨?_, ?_, ?_, ?_⟩
  · simp [Sizes.w13Cells, hone]
  · simp [Sizes.w2Cells, hmoe1]
  · rw [Sizes.w13ScaleCells, hgroups, Nat.mul_zero]
  · rw [Sizes.w2ScaleCells, hgroups2, Nat.mul_zero]

/-- A gather into a listed slot loads only if its sizes fit, or there is nothing to load. -/
theorem fits_of_loads {ptrs : ℕ → HostRegion F32} {job : GatherJob Bf16} (hblocks : 0 < blocks)
    (h : streamExperts float2bfloat16 ptrs sel nExp sz blocks = some job)
    (hlisted : ∃ slot, (listed sel slot).isSome) (hloads : job.Loads float2bfloat16 store sel sz) :
    sz.Empty ∨ sz.Fits := by
  obtain ⟨slot, e, he, hlast⟩ := exists_last_listed hlisted
  obtain ⟨hnTp, hgroup, hsrc, hdst, rfl⟩ := streamExperts_eq_some h
  obtain ⟨hw13, hw2, hw13S, hw2S⟩ := hloads
  by_cases hmoe : sz.moe = 0
  · refine Or.inl ⟨?_, ?_, ?_, ?_⟩ <;>
      simp [Sizes.w13Cells, Sizes.w2Cells, Sizes.w13ScaleCells, Sizes.w2ScaleCells, hmoe]
  by_cases hhidden : sz.hidden = 0
  · refine Or.inl ⟨?_, ?_, ?_, ?_⟩ <;>
      simp [Sizes.w13Cells, Sizes.w2Cells, Sizes.w13ScaleCells, Sizes.w2ScaleCells, hhidden]
  have hmoe : 0 < sz.moe := by omega
  have hhidden : 0 < sz.hidden := by omega
  have hcolumns := columns_of_w2 hhidden (hw2.whole slot e he)
  have hsize := kW13Weights_size hblocks hnTp he hlast hw13
  have hfour13 : sz.moe = sz.nTp * sz.tpMoe → 4 ∣ sz.hidden / sz.group := fun hrows =>
    four_dvd_of_kW13Scales hblocks hnTp he hlast hmoe hrows hw13S.lays
  by_cases hone : sz.hidden = 1
  · exact Or.inl (empty_of_oneHidden hnTp hsrc hone hmoe hcolumns hsize fun hpos =>
      hfour13 (rows_of_w13Scales hmoe hpos (hw13S.whole slot e he)))
  · right
    have hrows : sz.moe = sz.nTp * sz.tpMoe := rows_of_w13 hmoe (by omega) (hw13.whole slot e he)
    have hgroups := groups_of_w2Scales hhidden (hw2S.whole slot e he)
    have hvectors : 16 * (sz.tpMoe * sz.hidden / 2 / 16) = sz.tpMoe * (sz.hidden / 2) := by
      have hcells : sz.w13Cells = 2 * sz.nTp * (sz.tpMoe * (sz.hidden / 2)) := by
        unfold Sizes.w13Cells
        rw [hrows]
        ring
      rw [hcells, Nat.mul_left_comm 16] at hsize
      exact (Nat.eq_of_mul_eq_mul_left (show 0 < 2 * sz.nTp by omega) hsize).symm
    refine ⟨⟨sz.tpMoe, hrows⟩, bytes_of_vectors hsrc hvectors, ⟨_, hvectors.symm⟩, hcolumns, ⟨_, hgroups⟩,
      hfour13 hrows, ?_⟩
    rw [sz.groups_tpMoe] at hgroups
    exact four_dvd_of_kW2Scales hblocks hnTp he hlast (by omega) hgroups hw2S.lays

/-- **Gather layout.** A gather that `stream_experts` accepts, of experts of the store into any list of slots, writes
every cell of each listed slot of each tensor once and no other cell, and leaves there what the load path would,
exactly when no slot is listed, no slot has a cell, or the sizes fit. -/
theorem streamExperts_loads_iff (float2bfloat16 : F32 → Bf16) (store : CpuStore F32) {sel : List ℤ} {nExp blocks : ℕ}
    {sz : Sizes} {job : GatherJob Bf16} (hblocks : 0 < blocks) (hsel : ∀ e ∈ sel, e < nExp)
    (h : streamExperts float2bfloat16 (buildPointerTable store sz.nTp nExp) sel nExp sz blocks = some job) :
    job.Loads float2bfloat16 store sel sz ↔ (∀ slot, listed sel slot = none) ∨ sz.Empty ∨ sz.Fits := by
  constructor
  · intro hloads
    by_cases hnone : ∀ slot, listed sel slot = none
    · exact Or.inl hnone
    · push Not at hnone
      obtain ⟨slot, hslot⟩ := hnone
      exact Or.inr (fits_of_loads hblocks h ⟨slot, Option.isSome_iff_ne_none.mpr hslot⟩ hloads)
  · rintro (hnone | hempty | hfits)
    · obtain ⟨-, -, -, -, rfl⟩ := streamExperts_eq_some h
      exact ⟨launch_none hblocks hnone, launch_none hblocks hnone, launch_none hblocks hnone,
        launch_none hblocks hnone⟩
    · exact loads_of_empty hblocks h hempty
    · exact loads_of_fits hblocks hsel h hfits

end Accepted

/-! ## Two gathers -/

/-- The truncation of a float to the upper half of its bits. -/
def truncated (x : UInt32) : UInt16 := (x >>> 16).toUInt16

/-- A store whose bytes and floats differ from place to place. -/
def variedStore : CpuStore UInt32 := fun region tp e =>
  ⟨fun a => UInt8.ofNat (7 * region + 5 * tp + 3 * e + a),
    fun a => UInt32.ofNat (7 * region + 5 * tp + 3 * e + a) <<< 16⟩

/-- Two partitions of four groups of 32 in both directions, and two experts that change places: the gather loads. -/
theorem streamExperts_loads_128 : ∃ job, streamExperts truncated (buildPointerTable variedStore 2 2) [1, 0] 2
    ⟨2, 256, 128, 32⟩ 8 = some job ∧ job.Loads truncated variedStore [1, 0] ⟨2, 256, 128, 32⟩ :=
  ⟨_, rfl, (streamExperts_loads_iff truncated variedStore (by decide) (by decide) rfl).mpr
    (Or.inr (Or.inr ⟨by decide, by decide, by decide, by decide, by decide, by decide, by decide⟩))⟩

/-- A store of zeros. -/
def zeroStore : CpuStore UInt32 := fun _ _ _ => ⟨fun _ => 0, fun _ => 0⟩

/-- With 90 groups of 32 the gather is accepted, and does not load. -/
theorem streamExperts_accepts_2880 : ∃ job, streamExperts truncated (buildPointerTable zeroStore 1 1) [0] 1
    ⟨1, 2880, 2880, 32⟩ 8 = some job ∧ ¬ job.Loads truncated zeroStore [0] ⟨1, 2880, 2880, 32⟩ := by
  refine ⟨_, rfl, fun hloads => ?_⟩
  rcases fits_of_loads (by decide) rfl ⟨0, rfl⟩ hloads with hempty | hfits
  · exact absurd hempty.w13 (by decide)
  · exact absurd hfits.hiddenByFour (by decide)

end ExpertServe.Gather
