import ExpertServe.Kernel.StreamExperts

/-!
# Gathers of sizes that fit

Where the sizes fit, the place of each element can be read back from it: a slot is a number in mixed radix, whose
digits are the row-block, the row, the partition and the column.

* `gateOverUp_concatRows`, `interleaveScales_cell`, `strip_place`, `strip_cover`: the cells of the load path in these
  digits;
* `kW13Weights_gathered`, `kW2Weights_gathered`, `kW13Scales_gathered`, `kW2Scales_gathered`: each kernel gathers.
-/

namespace ExpertServe.Gather

open Lib

variable {F32 Bf16 α : Type*}

/-! ## Sizes that fit -/

section Fits

variable {sel : List ℤ} {nExp blocks : ℕ} {store : CpuStore F32} {float2bfloat16 : F32 → Bf16}

/-- Row `r` of block `blk` of the rows of gate and up, partition by partition. -/
theorem gateOverUp_concatRows {nTp m : ℕ} (gate up : ℕ → ℕ → ℕ → α) {blk r : ℕ} (c : ℕ) (hblk : blk < 2 * nTp)
    (hr : r < m) : gateOverUp (nTp * m) (concatRows nTp m gate) (concatRows nTp m up) (blk * m + r) c =
      some (if blk / nTp = 0 then gate (blk % nTp) r c else up (blk % nTp) r c) := by
  have hpos : 0 < nTp := by omega
  have hrow : ∀ {tp : ℕ} (part : ℕ → ℕ → ℕ → α), tp < nTp →
      concatRows nTp m part (tp * m + r) c = some (part tp r c) := fun {tp} part htp => by
    obtain ⟨hdiv, hmod⟩ := piece_div_mod (t := tp) hr
    unfold concatRows
    rw [hdiv, hmod, if_pos ⟨htp, hr⟩]
  unfold gateOverUp
  by_cases hgate : blk < nTp
  · rw [if_pos (piece_lt hgate hr), hrow gate hgate, if_pos (Nat.div_eq_of_lt hgate), Nat.mod_eq_of_lt hgate]
  · have hge : nTp * m ≤ blk * m := Nat.mul_le_mul_right m (by omega)
    have hsub : blk * m + r - nTp * m = (blk - nTp) * m + r := by
      rw [Nat.sub_mul]
      omega
    have hdiv : blk / nTp = 1 := Nat.div_eq_of_lt_le (by omega) (by omega)
    have hmod : blk % nTp = blk - nTp := by
      rw [Nat.mod_eq_sub_mod (by omega), Nat.mod_eq_of_lt (by omega)]
    rw [if_neg (by omega), hsub, hrow up (by omega), hdiv, hmod, if_neg Nat.one_ne_zero]

/-- The weights of w13 are gathered when the vectors of a row-block are its bytes. -/
theorem kW13Weights_gathered {sz : Sizes} {v : ℕ} (hblocks : 0 < blocks)
    (hsel : ∀ slot e, listed sel slot = some e → e < nExp) (hrows : sz.moe = sz.nTp * sz.tpMoe)
    (hv : 16 * v = sz.tpMoe * (sz.hidden / 2)) :
    Gathered sz.w13Cells sel (sz.loadedW13 store)
      (kW13Weights (buildPointerTable store sz.nTp nExp) sel sz.nTp nExp v (v * 2 * sz.nTp) blocks) := by
  have hsize : sz.w13Cells = 16 * (2 * sz.nTp * v) := by
    unfold Sizes.w13Cells
    calc 2 * sz.moe * (sz.hidden / 2) = 2 * sz.nTp * (sz.tpMoe * (sz.hidden / 2)) := by rw [hrows]; ring
      _ = 16 * (2 * sz.nTp * v) := by rw [← hv]; ring
  unfold kW13Weights
  refine launch_gathered hblocks 16 (fun t => 16 * (t.1 * v + t.2))
    (fun e t j => (store (if t.1 / sz.nTp = 0 then 0 else 2) (t.1 % sz.nTp) e).byte (16 * t.2 + j))
    (fun p => (p / 16 / v, p / 16 % v)) ?_ ?_ ?_
  · intro slot e blk i he hblk _
    have htp : blk % sz.nTp < sz.nTp := Nat.mod_lt blk (by omega)
    dsimp only
    rw [tbl_buildPointerTable store _ htp (hsel slot e he), Nat.div_add_mod', hsize]
    congr 1
    ring
  · rintro slot e - ⟨blk, i⟩ ht j hj
    obtain ⟨hblk, hi⟩ := mem_tasks.mp ht
    obtain ⟨hcell, -⟩ := piece_div_mod (t := blk * v + i) hj
    obtain ⟨hdiv, hmod⟩ := piece_div_mod (t := blk) hi
    have hlt : blk * v + i < 2 * sz.nTp * v := piece_lt hblk hi
    simp only [Nat.mul_comm 16 (blk * v + i)]
    refine ⟨by omega, by rw [hcell, hdiv, hmod], ?_⟩
    -- the vector is part of the row-block, whose cells follow one another as in the partition
    have hh : 0 < sz.hidden / 2 := Nat.pos_of_ne_zero fun h0 => by rw [h0] at hv; omega
    have hx : 16 * i + j < sz.tpMoe * (sz.hidden / 2) := by omega
    have hr : (16 * i + j) / (sz.hidden / 2) < sz.tpMoe := (Nat.div_lt_iff_lt_mul hh).mpr hx
    have hp : (blk * v + i) * 16 + j = blk * sz.tpMoe * (sz.hidden / 2) + (16 * i + j) := by
      rw [Nat.mul_assoc, ← hv]
      ring
    unfold Sizes.loadedW13 flat
    rw [hp, Nat.mul_comm (blk * sz.tpMoe), Nat.mul_add_div hh, Nat.mul_add_mod, hrows,
      gateOverUp_concatRows _ _ _ hblk hr, Nat.div_add_mod']
    split <;> rfl
  · intro p hp
    rw [hsize] at hp
    have hy : p / 16 < 2 * sz.nTp * v := by omega
    have hv0 : 0 < v := Nat.pos_of_ne_zero fun h0 => by simp [h0] at hy
    refine ⟨mem_tasks.mpr ⟨(Nat.div_lt_iff_lt_mul hv0).mpr hy, Nat.mod_lt _ hv0⟩, ?_⟩
    dsimp only
    rw [Nat.div_add_mod']
    omega

/-- Vector `i` of partition `tp` is at a place of the slot, row by row and partition by partition, that can be read
back. -/
theorem vector_place {rows nTp u tp i : ℕ} (htp : tp < nTp) (hi : i < rows * u) :
    (i / u * nTp + tp) * u + i % u < rows * nTp * u ∧ ((i / u * nTp + tp) * u + i % u) / u % nTp = tp ∧
      ((i / u * nTp + tp) * u + i % u) / u / nTp = i / u ∧ ((i / u * nTp + tp) * u + i % u) % u = i % u := by
  have hu0 : 0 < u := Nat.pos_of_ne_zero fun h0 => by simp [h0] at hi
  have hr : i / u < rows := (Nat.div_lt_iff_lt_mul hu0).mpr hi
  obtain ⟨hdiv, hmod⟩ := piece_div_mod (t := i / u * nTp + tp) (Nat.mod_lt i hu0)
  obtain ⟨hrow, htp'⟩ := piece_div_mod (t := i / u) htp
  rw [hdiv, hmod, hrow, htp']
  exact ⟨piece_lt (piece_lt hr htp) (Nat.mod_lt i hu0), rfl, rfl, rfl⟩

/-- Every place of a slot is that of a vector of a partition. -/
theorem vector_cover {rows nTp u y : ℕ} (hy : y < rows * nTp * u) :
    y / u % nTp < nTp ∧ y / u / nTp * u + y % u < rows * u ∧
      ((y / u / nTp * u + y % u) / u * nTp + y / u % nTp) * u + (y / u / nTp * u + y % u) % u = y := by
  have hu0 : 0 < u := Nat.pos_of_ne_zero fun h0 => by simp [h0] at hy
  have hrow : y / u < rows * nTp := (Nat.div_lt_iff_lt_mul hu0).mpr hy
  have hT : 0 < nTp := Nat.pos_of_ne_zero fun h0 => by simp [h0] at hrow
  have hr : y / u / nTp < rows := (Nat.div_lt_iff_lt_mul hT).mpr hrow
  have hc := Nat.mod_lt y hu0
  obtain ⟨hdiv, hmod⟩ := piece_div_mod (t := y / u / nTp) hc
  refine ⟨Nat.mod_lt _ hT, piece_lt hr hc, ?_⟩
  rw [hdiv, hmod, Nat.div_add_mod', Nat.div_add_mod']

/-- The weights of w2 are gathered when the rows of the partitions are whole vectors that fill the rows of the slot. -/
theorem kW2Weights_gathered {sz : Sizes} {u : ℕ} (hblocks : 0 < blocks)
    (hsel : ∀ slot e, listed sel slot = some e → e < nExp) (hu : sz.tpMoe / 2 = 16 * u)
    (hcolumns : sz.moe / 2 = sz.nTp * (16 * u)) :
    Gathered sz.w2Cells sel (sz.loadedW2 store)
      (kW2Weights (buildPointerTable store sz.nTp nExp) sel sz.nTp nExp sz.hidden u (sz.nTp * u)
        (sz.hidden * (sz.moe / 2)) blocks) := by
  have hsize : sz.w2Cells = 16 * (sz.hidden * sz.nTp * u) := by
    unfold Sizes.w2Cells
    rw [hcolumns]
    ring
  unfold kW2Weights
  refine launch_gathered hblocks 16 (fun t => 16 * ((t.2 / u * sz.nTp + t.1) * u + t.2 % u))
    (fun e t j => (store 4 t.1 e).byte (16 * t.2 + j))
    (fun p => (p / 16 / u % sz.nTp, p / 16 / u / sz.nTp * u + p / 16 % u)) ?_ ?_ ?_
  · intro slot e tp i he htp _
    dsimp only
    rw [tbl_buildPointerTable store _ htp (hsel slot e he), ← Nat.mod_eq_sub_div_mul]
    unfold Sizes.w2Cells
    congr 1
    ring
  · rintro slot e - ⟨tp, i⟩ ht j hj
    obtain ⟨htp, hi⟩ := mem_tasks.mp ht
    dsimp only at htp hi ⊢
    have hu0 : 0 < u := Nat.pos_of_ne_zero fun h0 => by simp [h0] at hi
    obtain ⟨hlt, htask, hrow, hcol⟩ := vector_place htp hi
    obtain ⟨hcell, -⟩ := piece_div_mod (t := (i / u * sz.nTp + tp) * u + i % u) hj
    rw [Nat.mul_comm 16 ((i / u * sz.nTp + tp) * u + i % u)]
    refine ⟨by omega, ?_, ?_⟩
    · rw [hcell, htask, hrow, hcol, Nat.div_add_mod']
    · have hmod := Nat.mod_lt i hu0
      have hrest : 16 * (i % u) + j < 16 * u := by omega
      have hin : tp * (16 * u) + (16 * (i % u) + j) < sz.nTp * (16 * u) := piece_lt htp hrest
      have hp : ((i / u * sz.nTp + tp) * u + i % u) * 16 + j =
          i / u * (sz.nTp * (16 * u)) + (tp * (16 * u) + (16 * (i % u) + j)) := by ring
      obtain ⟨hdiv, hmod'⟩ := piece_div_mod (t := i / u) hin
      obtain ⟨htp', hcol'⟩ := piece_div_mod (t := tp) hrest
      have hsrc : i / u * (16 * u) + (16 * (i % u) + j) = 16 * i + j := by
        conv_rhs => rw [← Nat.div_add_mod' i u]
        ring
      unfold Sizes.loadedW2 flat concatCols
      rw [hcolumns, hp, hdiv, hmod', hu, htp', hcol', if_pos ⟨htp, hrest⟩]
      dsimp only
      rw [hsrc]
  · intro p hp
    rw [hsize] at hp
    obtain ⟨htp, hi, hplace⟩ := vector_cover (show p / 16 < sz.hidden * sz.nTp * u by omega)
    refine ⟨mem_tasks.mpr ⟨htp, hi⟩, ?_⟩
    dsimp only
    rw [hplace]
    omega

/-- Interleaving by four puts group `c` of row `n` at the `c % 4`-th place of the row in strip `c / 4`. -/
theorem interleaveScales_cell {β : Type*} {rows cols n c : ℕ} (scales : ℕ → ℕ → β) (hfour : 4 ∣ cols) (hn : n < rows) :
    interleaveScales rows cols scales ((c / 4 * rows + n) * 4 + c % 4) = scales n c := by
  have hmod : c % 4 < 4 := Nat.mod_lt c (by decide)
  obtain ⟨hdiv, hrest⟩ := piece_div_mod (t := c / 4 * rows + n) hmod
  obtain ⟨hstrip, hrow⟩ := piece_div_mod (t := c / 4) hn
  unfold interleaveScales
  rw [if_pos (Nat.mod_eq_zero_of_dvd hfour), hdiv, hrest, hstrip, hrow, Nat.div_add_mod']

theorem shiftRight_and (c : ℕ) : c >>> 2 = c / 4 ∧ c &&& 3 = c % 4 :=
  ⟨Nat.shiftRight_eq_div_pow c 2, Nat.and_two_pow_sub_one_eq_mod c 2⟩

/-- The place of group `c` of row `n` is in the slot, and can be read back. -/
theorem strip_place {rows cols n c : ℕ} (hfour : 4 ∣ cols) (hn : n < rows) (hc : c < cols) :
    (c / 4 * rows + n) * 4 + c % 4 < rows * cols ∧
      ((c / 4 * rows + n) * 4 + c % 4) / 4 % rows = n ∧
      4 * (((c / 4 * rows + n) * 4 + c % 4) / 4 / rows) + ((c / 4 * rows + n) * 4 + c % 4) % 4 = c := by
  obtain ⟨a, rfl⟩ := hfour
  have hmod : c % 4 < 4 := Nat.mod_lt c (by decide)
  obtain ⟨hdiv, hrest⟩ := piece_div_mod (t := c / 4 * rows + n) hmod
  obtain ⟨hstrip, hrow⟩ := piece_div_mod (t := c / 4) hn
  rw [hdiv, hrest, hstrip, hrow]
  refine ⟨?_, rfl, by omega⟩
  calc (c / 4 * rows + n) * 4 + c % 4 < a * rows * 4 := piece_lt (piece_lt (show c / 4 < a by omega) hn) hmod
    _ = rows * (4 * a) := by ring

/-- Every cell of a slot is the place of a group of a row. -/
theorem strip_cover {rows cols p : ℕ} (hfour : 4 ∣ cols) (hp : p < rows * cols) :
    p / 4 % rows < rows ∧ 4 * (p / 4 / rows) + p % 4 < cols ∧
      ((4 * (p / 4 / rows) + p % 4) / 4 * rows + p / 4 % rows) * 4 + (4 * (p / 4 / rows) + p % 4) % 4 = p := by
  obtain ⟨a, rfl⟩ := hfour
  have hrows : 0 < rows := Nat.pos_of_ne_zero fun h0 => by simp [h0] at hp
  have hmod : p % 4 < 4 := Nat.mod_lt p (by decide)
  have hy : p / 4 < a * rows := Nat.div_lt_of_lt_mul (hp.trans_eq (by ring))
  have hx : p / 4 / rows < a := (Nat.div_lt_iff_lt_mul hrows).mpr hy
  have hstrip : (4 * (p / 4 / rows) + p % 4) / 4 = p / 4 / rows := by omega
  have hrest : (4 * (p / 4 / rows) + p % 4) % 4 = p % 4 := by omega
  refine ⟨Nat.mod_lt _ hrows, by omega, ?_⟩
  rw [hstrip, hrest, Nat.div_add_mod', Nat.div_add_mod']

/-- The scales of w13 are gathered when partitions have whole rows and groups come by four. -/
theorem kW13Scales_gathered {sz : Sizes} (hblocks : 0 < blocks)
    (hsel : ∀ slot e, listed sel slot = some e → e < nExp) (hrows : sz.moe = sz.nTp * sz.tpMoe)
    (hfour : 4 ∣ sz.hidden / sz.group) :
    Gathered sz.w13ScaleCells sel (sz.loadedW13Scales float2bfloat16 store)
      (kW13Scales float2bfloat16 (buildPointerTable store sz.nTp nExp) sel sz.nTp nExp sz.moe (sz.hidden / sz.group)
        sz.tpMoe (2 * sz.moe * (sz.hidden / sz.group)) blocks) := by
  unfold kW13Scales Sizes.w13ScaleCells Sizes.loadedW13Scales
  generalize hg : sz.hidden / sz.group = g at *
  generalize hm : sz.tpMoe = m at *
  -- the row a task belongs to
  have hrow : ∀ {blk i : ℕ}, blk < 2 * sz.nTp → i < m * g → 0 < g ∧ i / g < m ∧ i % g < g ∧
      blk * m + i / g < 2 * sz.moe := fun {blk i} hblk hi => by
    have hg0 : 0 < g := Nat.pos_of_ne_zero fun h0 => by simp [h0] at hi
    have hr : i / g < m := (Nat.div_lt_iff_lt_mul hg0).mpr hi
    refine ⟨hg0, hr, Nat.mod_lt i hg0, ?_⟩
    calc blk * m + i / g < 2 * sz.nTp * m := piece_lt hblk hr
      _ = 2 * sz.moe := by rw [hrows, Nat.mul_assoc]
  refine launch_gathered hblocks 1
    (fun t => (t.2 % g / 4 * (2 * sz.moe) + (t.1 * m + t.2 / g)) * 4 + t.2 % g % 4)
    (fun e t _ => float2bfloat16 ((store (if t.1 / sz.nTp = 0 then 1 else 3) (t.1 % sz.nTp) e).float t.2))
    (fun p => (p / 4 % (2 * sz.moe) / m, p / 4 % (2 * sz.moe) % m * g + (4 * (p / 4 / (2 * sz.moe)) + p % 4))) ?_ ?_ ?_
  · intro slot e blk i he hblk _
    have htp : blk % sz.nTp < sz.nTp := Nat.mod_lt blk (by omega)
    have hn : blk / sz.nTp * sz.moe + blk % sz.nTp * m = blk * m := by
      rw [hrows, ← Nat.mul_assoc, ← Nat.add_mul, Nat.div_add_mod']
    dsimp only
    rw [tbl_buildPointerTable store _ htp (hsel slot e he), ← Nat.mod_eq_sub_div_mul, (shiftRight_and _).1,
      (shiftRight_and _).2, hn]
    congr 1
    ring
  · rintro slot e - ⟨blk, i⟩ ht j hj
    obtain ⟨hblk, hi⟩ := mem_tasks.mp ht
    dsimp only at hblk hi ⊢
    obtain ⟨hg0, hr, hc, hn⟩ := hrow hblk hi
    obtain ⟨hlt, hback, hgroup⟩ := strip_place hfour hn hc
    obtain ⟨hdiv, hmod⟩ := piece_div_mod (t := blk) hr
    obtain rfl : j = 0 := by omega
    rw [Nat.add_zero]
    refine ⟨hlt, ?_, ?_⟩
    · rw [hback, hgroup, hdiv, hmod, Nat.div_add_mod']
    · rw [interleaveScales_cell _ hfour hn, hrows, gateOverUp_concatRows _ _ _ hblk hr, Nat.div_add_mod']
      split <;> rfl
  · intro p hp
    obtain ⟨hn, hc, hplace⟩ := strip_cover hfour hp
    have hm0 : 0 < m := Nat.pos_of_ne_zero fun h0 => by simp [hrows, h0] at hn
    have hr := Nat.mod_lt (p / 4 % (2 * sz.moe)) hm0
    have hblk : p / 4 % (2 * sz.moe) / m < 2 * sz.nTp := by
      apply (Nat.div_lt_iff_lt_mul hm0).mpr
      rwa [Nat.mul_assoc, ← hrows]
    obtain ⟨hdiv, hmod⟩ := piece_div_mod (t := p / 4 % (2 * sz.moe) % m) hc
    refine ⟨mem_tasks.mpr ⟨hblk, piece_lt hr hc⟩, ?_⟩
    dsimp only
    rw [hdiv, hmod, Nat.div_add_mod', hplace]
    omega

/-- The scales of w2 are gathered when partitions have whole groups and groups come by four. -/
theorem kW2Scales_gathered {sz : Sizes} {g : ℕ} (hblocks : 0 < blocks)
    (hsel : ∀ slot e, listed sel slot = some e → e < nExp) (hg : sz.tpMoe / sz.group = g)
    (hgroups : sz.moe / sz.group = sz.nTp * g) (hfour : 4 ∣ sz.moe / sz.group) :
    Gathered sz.w2ScaleCells sel (sz.loadedW2Scales float2bfloat16 store)
      (kW2Scales float2bfloat16 (buildPointerTable store sz.nTp nExp) sel sz.nTp nExp sz.hidden g
        (sz.hidden * (sz.moe / sz.group)) blocks) := by
  unfold kW2Scales Sizes.w2ScaleCells Sizes.loadedW2Scales
  rw [hg]
  rw [hgroups] at hfour ⊢
  -- the group a task belongs to
  have hgroup : ∀ {tp i : ℕ}, tp < sz.nTp → i < sz.hidden * g → 0 < g ∧ i / g < sz.hidden ∧ i % g < g ∧
      tp * g + i % g < sz.nTp * g := fun {tp i} htp hi => by
    have hg0 : 0 < g := Nat.pos_of_ne_zero fun h0 => by simp [h0] at hi
    have hc := Nat.mod_lt i hg0
    exact ⟨hg0, (Nat.div_lt_iff_lt_mul hg0).mpr hi, hc, piece_lt htp hc⟩
  refine launch_gathered hblocks 1
    (fun t => ((t.1 * g + t.2 % g) / 4 * sz.hidden + t.2 / g) * 4 + (t.1 * g + t.2 % g) % 4)
    (fun e t _ => float2bfloat16 ((store 5 t.1 e).float t.2))
    (fun p => ((4 * (p / 4 / sz.hidden) + p % 4) / g,
      p / 4 % sz.hidden * g + (4 * (p / 4 / sz.hidden) + p % 4) % g)) ?_ ?_ ?_
  · intro slot e tp i he htp _
    dsimp only
    rw [tbl_buildPointerTable store _ htp (hsel slot e he), ← Nat.mod_eq_sub_div_mul, (shiftRight_and _).1,
      (shiftRight_and _).2]
    congr 1
    ring
  · rintro slot e - ⟨tp, i⟩ ht j hj
    obtain ⟨htp, hi⟩ := mem_tasks.mp ht
    dsimp only at htp hi ⊢
    obtain ⟨hg0, hr, hc, hin⟩ := hgroup htp hi
    obtain ⟨hlt, hback, hread⟩ := strip_place hfour hr hin
    obtain ⟨hdiv, hmod⟩ := piece_div_mod (t := tp) hc
    obtain rfl : j = 0 := by omega
    rw [Nat.add_zero]
    refine ⟨hlt, ?_, ?_⟩
    · rw [hback, hread, hdiv, hmod, Nat.div_add_mod']
    · rw [interleaveScales_cell _ hfour hr]
      unfold concatCols
      rw [hdiv, hmod, if_pos ⟨htp, hc⟩]
      dsimp only
      rw [Nat.div_add_mod']
  · intro p hp
    obtain ⟨hr, hc, hplace⟩ := strip_cover hfour hp
    have hg0 : 0 < g := Nat.pos_of_ne_zero fun h0 => by simp [h0] at hc
    have hrest := Nat.mod_lt (4 * (p / 4 / sz.hidden) + p % 4) hg0
    obtain ⟨hdiv, hmod⟩ := piece_div_mod (t := p / 4 % sz.hidden) hrest
    refine ⟨mem_tasks.mpr ⟨(Nat.div_lt_iff_lt_mul hg0).mpr hc, piece_lt hr hrest⟩, ?_⟩
    dsimp only
    rw [hdiv, hmod, Nat.div_add_mod', hplace]
    omega

end Fits

end ExpertServe.Gather
