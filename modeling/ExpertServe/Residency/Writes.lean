import ExpertServe.Residency.SlotTable

/-!
# A change of the GPU set, write by write

Both ways to change the GPU set first copy tensors into live slots, one copy after the other, and then write the
tables. A `Plan` lists these writes in the order of the code, and a change that raises leaves the layer as some
prefix of its plan has made it.

* `LiveLayer`: a layer with the slots of each of its weight tensors, one of which is a `view`;
* `fullPlan`, `inPlacePlan`, `changePlan`: the writes of `_apply_expert_selection`, of
  `_apply_expert_selection_incremental`, and of the two as the controllers chain them;
* `Plan.run_eq`: a run of `k` writes does the first of the copies and then the first of the table writes;
* `fullPlan_view`, `inPlacePlan_view`: a whole run is, tensor by tensor, the change of `Restage`.
-/

namespace ExpertServe

open Lib

variable {E : ℕ}

/-! ## Live tensors -/

/-- The weight tensors of a layer. -/
inductive TensorName where
  | w13Weight
  | w13WeightScaleInv
  | w2Weight
  | w2WeightScaleInv
  | w13WeightScale
  | w2WeightScale
  | w13WeightPacked
  | w2WeightPacked
deriving DecidableEq

/-- `weight_names`: the tensors a layer has under a quantisation, in the order the copies go through them. -/
def weightNames : Quant → List TensorName
  | .w4afp8 | .fp8 | .mxfp4 => [.w13Weight, .w13WeightScaleInv, .w2Weight, .w2WeightScaleInv]
  | .fp8Channel => [.w13Weight, .w13WeightScale, .w2Weight, .w2WeightScale]
  | .bf16 => [.w13Weight, .w2Weight]
  | .int4 => [.w13WeightPacked, .w13WeightScale, .w2WeightPacked, .w2WeightScale]

theorem weightNames_nodup (q : Quant) : (weightNames q).Nodup := by cases q <;> decide

theorem weightNames_ne_nil (q : Quant) : weightNames q ≠ [] := by cases q <;> decide

/-- A layer with its residency state and the slots of each of its tensors. -/
structure LiveLayer (E : ℕ) where
  method : Method E
  tensors : TensorName × ℕ → Option (Fin E)

/-- The residency state with the slots of one tensor. -/
def LiveLayer.view (l : LiveLayer E) (n : TensorName) : Method E :=
  { l.method with slots := fun s => l.tensors (n, s) }

/-- A layer whose tensors all hold what the slots of its state say. -/
def LiveLayer.of (m : Method E) : LiveLayer E := ⟨m, fun p => m.slots p.2⟩

/-! ## Writes -/

/-- A copy into the slot of a tensor, and the bytes it copies. -/
abbrev SlotCopy (E : ℕ) := (TensorName × ℕ) × Option (Fin E)

/-- A write of a table, of an entry of one, or of a mirror. -/
inductive TableWrite (E : ℕ) where
  | setMask (mask : Finset (Fin E))
  | flipMask (e : Fin E) (resident : Bool)
  | mirrorMask
  | setIndex (index : Fin E → ℤ)
  | putIndex (e : Fin E) (slot : ℤ)
  | mirrorIndex
  | setOccupants (occupants : List (Fin E))
  | putOccupant (slot : ℕ) (e : Fin E)
  | refreshWrapper

/-- The writes of a change: copies, then table writes. -/
structure Plan (E : ℕ) where
  copies : List (SlotCopy E)
  tables : List (TableWrite E)

/-- The writes in order. -/
def Plan.writes (p : Plan E) : List (SlotCopy E ⊕ TableWrite E) := p.copies.map .inl ++ p.tables.map .inr

section Apply

variable {α : Type*} [Field α]

/-- What a table write does. -/
def TableWrite.apply (env : Env α) (m : Method E) : TableWrite E → Method E
  | .setMask mask => { m with gpuExpertsMask := mask }
  | .flipMask e resident =>
    { m with gpuExpertsMask := if resident then insert e m.gpuExpertsMask else m.gpuExpertsMask.erase e }
  | .mirrorMask => { m with gpuExpertsMaskCuda := m.gpuExpertsMask }
  | .setIndex index => { m with logicalToGpuIndex := index }
  | .putIndex e slot => { m with logicalToGpuIndex := Function.update m.logicalToGpuIndex e slot }
  | .mirrorIndex => { m with logicalToGpuIndexCuda := m.logicalToGpuIndex }
  | .setOccupants occupants => { m with gpuIndexToLogical := occupants }
  | .putOccupant slot e => { m with gpuIndexToLogical := m.gpuIndexToLogical.set slot e }
  | .refreshWrapper => m.refreshWrapper env

/-- What a write does to a layer. -/
def LiveLayer.write (env : Env α) (l : LiveLayer E) : SlotCopy E ⊕ TableWrite E → LiveLayer E
  | .inl c => { l with tensors := Function.update l.tensors c.1 c.2 }
  | .inr w => { l with method := w.apply env l.method }

/-- The layer after the first `k` writes of a plan. -/
def Plan.run (env : Env α) (p : Plan E) (l : LiveLayer E) (k : ℕ) : LiveLayer E :=
  (p.writes.take k).foldl (LiveLayer.write env) l

end Apply

/-! ## The plans -/

/-- The copies of `copy_experts_weights_*`: tensor by tensor, each selected expert into the slot of its position. -/
def fullCopies (q : Quant) (store : Finset (Fin E)) (selected : List (Fin E)) (l : LiveLayer E) : List (SlotCopy E) :=
  (weightNames q).flatMap fun n => selected.zipIdx.map fun p => ((n, p.2), load q store (l.view n) none p.1)

/-- The writes of `_apply_expert_selection`, to a list of distinct experts; under MXFP4 it raises before the first. -/
def fullPlan (q : Quant) (store : Finset (Fin E)) (selected : List (Fin E)) (l : LiveLayer E) : Plan E :=
  if q = .mxfp4 then ⟨[], []⟩
  else
    let (mask, index, occupants) := updateGpuExpertMappings selected
    { copies := fullCopies q store selected l
      tables := [.setMask mask, .mirrorMask, .setIndex index, .mirrorIndex, .setOccupants occupants,
        .refreshWrapper] }

/-- The copies of an in-place swap: pair by pair, each tensor of the arrival into the slot of the departure. It stops
at a departure without a slot. -/
def arrivalCopies (m : Method E) (ctx : TensorName → Fin E → Option (Fin E)) (names : List TensorName) :
    List (Fin E × Fin E) → Bool × List (SlotCopy E)
  | [] => (true, [])
  | (a, d) :: ps =>
    if m.logicalToGpuIndex d < 0 then (false, [])
    else
      let rest := arrivalCopies m ctx names ps
      (rest.1, (names.map fun n => ((n, (m.logicalToGpuIndex d).toNat), ctx n a)) ++ rest.2)

/-- The table writes for one arrival and one departure, in the slot the departure had before the swap. -/
def flipWrites (oldIndex : Fin E → ℤ) (p : Fin E × Fin E) : List (TableWrite E) :=
  [.flipMask p.2 false, .flipMask p.1 true, .putIndex p.2 (-1), .putIndex p.1 (oldIndex p.2),
    .putOccupant (oldIndex p.2).toNat p.1]

/-- The writes of an in-place swap, and whether it goes through. -/
def inPlacePlan (q : Quant) (ctx : TensorName → Fin E → Option (Fin E)) (add drop : List (Fin E)) (l : LiveLayer E) :
    Bool × Plan E :=
  let (copied, copies) := arrivalCopies l.method ctx (weightNames q) (add.zip drop)
  if copied then
    (true, ⟨copies, (add.zip drop).flatMap (flipWrites l.method.logicalToGpuIndex) ++
      [.mirrorMask, .mirrorIndex, .refreshWrapper]⟩)
  else (false, ⟨copies, []⟩)

section Change

variable {α : Type*} [Field α] [LinearOrder α]

/-- The writes of `_apply_expert_selection_incremental`, and whether it accepts. -/
def incrementalPlan (env : Env α) (q : Quant) (ctxBuilt : Bool) (store : Finset (Fin E)) (selected : List (Fin E))
    (l : LiveLayer E) : Bool × Plan E :=
  if ctxBuilt ∧ q ≠ .w4afp8 then (false, ⟨[], []⟩)
  else
    let add := whereTrue (selected.toFinset \ l.method.gpuExpertsMask)
    let drop := whereTrue (l.method.gpuExpertsMask \ selected.toFinset)
    if add = [] ∧ drop = [] then (true, ⟨[], []⟩)
    else if add.length ≠ drop.length then (false, ⟨[], []⟩)
    else if env.ktTierIncrementalMax < add.length then (false, ⟨[], []⟩)
    else if q ≠ .w4afp8 then (false, ⟨[], []⟩)
    else inPlacePlan q (fun n => load q store (l.view n) (some add)) add drop l

/-- The writes of a change as the controllers make it: in place if that is switched on and accepts, else by a full
restage of the layer as the attempt has left it. -/
def changePlan {n : ℕ} (env : Env α) (q : Quant) (c : Change E n) (l : LiveLayer E) : Plan E :=
  let tried := if c.incremental then incrementalPlan env q c.ctxBuilt c.store c.selected l else (false, ⟨[], []⟩)
  if tried.1 then tried.2
  else
    let full := fullPlan q c.store c.selected { l with tensors := updates l.tensors tried.2.copies }
    ⟨tried.2.copies ++ full.copies, full.tables⟩

end Change

/-! ## Runs of a plan -/

section Run

variable {α : Type*} [Field α] {env : Env α} {l : LiveLayer E} {p : Plan E} {k : ℕ}

theorem foldl_copies (cs : List (SlotCopy E)) :
    (cs.map Sum.inl).foldl (LiveLayer.write env) l = { l with tensors := updates l.tensors cs } := by
  induction cs generalizing l with
  | nil => rfl
  | cons c cs ih =>
    rw [List.map_cons, List.foldl_cons, ih, updates_cons]
    rfl

theorem foldl_tables (ws : List (TableWrite E)) :
    (ws.map Sum.inr).foldl (LiveLayer.write env) l =
      { l with method := ws.foldl (TableWrite.apply env) l.method } := by
  induction ws generalizing l with
  | nil => rfl
  | cons w ws ih =>
    rw [List.map_cons, List.foldl_cons, ih, List.foldl_cons]
    rfl

/-- **A run does the first of the copies, then the first of the table writes.** -/
theorem Plan.run_eq : p.run env l k =
    ⟨(p.tables.take (k - p.copies.length)).foldl (TableWrite.apply env) l.method,
      updates l.tensors (p.copies.take k)⟩ := by
  unfold Plan.run Plan.writes
  rw [List.take_append, List.foldl_append, List.length_map, ← List.map_take, ← List.map_take, foldl_copies,
    foldl_tables]

/-- What every one of the writes keeps, all of them keep. -/
theorem foldl_apply_kept {β : Type*} (π : Method E → β) {ws : List (TableWrite E)} {m : Method E}
    (h : ∀ w ∈ ws, ∀ m : Method E, π (w.apply env m) = π m) : π (ws.foldl (TableWrite.apply env) m) = π m := by
  induction ws generalizing m with
  | nil => rfl
  | cons w ws ih =>
    rw [List.foldl_cons, ih fun w' hw' => h w' (List.mem_cons_of_mem w hw')]
    exact h w List.mem_cons_self m

/-- Writes that replace the list of occupants only by lists of its length keep its length. -/
theorem foldl_apply_length {n : ℕ} {ws : List (TableWrite E)} {m : Method E}
    (h : ∀ occupants, .setOccupants occupants ∈ ws → occupants.length = n) (hm : m.gpuIndexToLogical.length = n) :
    (ws.foldl (TableWrite.apply env) m).gpuIndexToLogical.length = n := by
  induction ws generalizing m with
  | nil => exact hm
  | cons w ws ih =>
    refine ih (fun occupants hmem => h occupants (List.mem_cons_of_mem w hmem)) ?_
    cases w with
    | setOccupants occupants => exact h occupants List.mem_cons_self
    | putOccupant slot e => exact List.length_set.trans hm
    | _ => exact hm

/-- Only the last table write of a change reaches the wrapper, and none the rank or the RAM tier. -/
theorem TableWrite.apply_owner {w : TableWrite E} (hw : w ≠ .refreshWrapper) (m : Method E) :
    ((w.apply env m).tpRank, (w.apply env m).wrapper, (w.apply env m).ramExpertsMask) =
      (m.tpRank, m.wrapper, m.ramExpertsMask) := by
  cases w with
  | refreshWrapper => exact absurd rfl hw
  | _ => rfl

/-- The table writes for one pair are its flip. -/
theorem foldl_flipWrites (oldIndex : Fin E → ℤ) (q : Fin E × Fin E) (m : Method E) :
    (flipWrites oldIndex q).foldl (TableWrite.apply env) m =
      { m with
        gpuExpertsMask := (flipResidency oldIndex (m.gpuExpertsMask, m.logicalToGpuIndex, m.gpuIndexToLogical) q).1
        logicalToGpuIndex :=
          (flipResidency oldIndex (m.gpuExpertsMask, m.logicalToGpuIndex, m.gpuIndexToLogical) q).2.1
        gpuIndexToLogical :=
          (flipResidency oldIndex (m.gpuExpertsMask, m.logicalToGpuIndex, m.gpuIndexToLogical) q).2.2 } := rfl

/-- The table writes for all pairs are their flips. -/
theorem foldl_flips (oldIndex : Fin E → ℤ) (ps : List (Fin E × Fin E)) (m : Method E) :
    (ps.flatMap (flipWrites oldIndex)).foldl (TableWrite.apply env) m =
      { m with
        gpuExpertsMask :=
          (ps.foldl (flipResidency oldIndex) (m.gpuExpertsMask, m.logicalToGpuIndex, m.gpuIndexToLogical)).1
        logicalToGpuIndex :=
          (ps.foldl (flipResidency oldIndex) (m.gpuExpertsMask, m.logicalToGpuIndex, m.gpuIndexToLogical)).2.1
        gpuIndexToLogical :=
          (ps.foldl (flipResidency oldIndex) (m.gpuExpertsMask, m.logicalToGpuIndex, m.gpuIndexToLogical)).2.2 } := by
  induction ps generalizing m with
  | nil => rfl
  | cons q ps ih =>
    rw [List.flatMap_cons, List.foldl_append, foldl_flipWrites, ih]
    rfl

end Run

/-! ## What the copies write -/

section Copies

variable {q : Quant} {store : Finset (Fin E)} {selected : List (Fin E)} {l : LiveLayer E} {n : TensorName} {s : ℕ}
  {b : Option (Fin E)}

theorem mem_fullCopies : ((n, s), b) ∈ fullCopies q store selected l ↔
    n ∈ weightNames q ∧ ∃ e, selected[s]? = some e ∧ b = load q store (l.view n) none e := by
  unfold fullCopies
  simp only [List.mem_flatMap, List.mem_map, Prod.mk.injEq, Prod.exists, List.mem_zipIdx_iff_getElem?]
  constructor
  · rintro ⟨n', hn, e, s', hs, ⟨rfl, rfl⟩, rfl⟩
    exact ⟨hn, e, hs, rfl⟩
  · rintro ⟨hn, e, hs, rfl⟩
    exact ⟨n, hn, e, s, hs, ⟨rfl, rfl⟩, rfl⟩

/-- A restage writes each slot of each tensor at most once. -/
theorem fullCopies_nodup : ((fullCopies q store selected l).map Prod.fst).Nodup := by
  have hkeys : (fullCopies q store selected l).map Prod.fst =
      (weightNames q).flatMap fun n => (List.range selected.length).map fun s => (n, s) := by
    unfold fullCopies
    rw [List.map_flatMap]
    congr 1
    funext n
    rw [List.map_map, List.range_eq_range', ← List.zipIdx_map_snd 0 selected, List.map_map]
    rfl
  rw [hkeys]
  exact (weightNames_nodup q).product List.nodup_range

/-- The copies of a swap in which every departure has a slot. -/
def pairCopies (m : Method E) (ctx : TensorName → Fin E → Option (Fin E)) (names : List TensorName)
    (ps : List (Fin E × Fin E)) : List (SlotCopy E) :=
  ps.flatMap fun p => names.map fun n => ((n, (m.logicalToGpuIndex p.2).toNat), ctx n p.1)

theorem arrivalCopies_eq {m : Method E} {ctx : TensorName → Fin E → Option (Fin E)} {names : List TensorName}
    {ps : List (Fin E × Fin E)} (h : ∀ p ∈ ps, 0 ≤ m.logicalToGpuIndex p.2) :
    arrivalCopies m ctx names ps = (true, pairCopies m ctx names ps) := by
  induction ps with
  | nil => rfl
  | cons p ps ih =>
    obtain ⟨a, d⟩ := p
    have hd : ¬ m.logicalToGpuIndex d < 0 := not_lt.mpr (h (a, d) List.mem_cons_self)
    rw [arrivalCopies, if_neg hd, ih fun p hp => h p (List.mem_cons_of_mem _ hp)]
    rfl

theorem mem_pairCopies {m : Method E} {ctx : TensorName → Fin E → Option (Fin E)} {names : List TensorName}
    {ps : List (Fin E × Fin E)} : ((n, s), b) ∈ pairCopies m ctx names ps ↔
      n ∈ names ∧ ∃ p ∈ ps, s = (m.logicalToGpuIndex p.2).toNat ∧ b = ctx n p.1 := by
  unfold pairCopies
  simp only [List.mem_flatMap, List.mem_map, Prod.mk.injEq]
  constructor
  · rintro ⟨p, hp, n', hn, ⟨rfl, rfl⟩, rfl⟩
    exact ⟨hn, p, hp, rfl, rfl⟩
  · rintro ⟨hn, p, hp, rfl, rfl⟩
    exact ⟨p, hp, n, hn, ⟨rfl, rfl⟩, rfl⟩

/-- A swap of departures in distinct slots writes each slot of each tensor at most once. -/
theorem pairCopies_nodup {m : Method E} {ctx : TensorName → Fin E → Option (Fin E)} {names : List TensorName}
    {ps : List (Fin E × Fin E)} (hnames : names.Nodup)
    (hslots : (ps.map fun p => (m.logicalToGpuIndex p.2).toNat).Nodup) :
    ((pairCopies m ctx names ps).map Prod.fst).Nodup := by
  have hkeys : (pairCopies m ctx names ps).map Prod.fst =
      (ps.map fun p => (m.logicalToGpuIndex p.2).toNat).flatMap fun s => names.map fun n => (n, s) := by
    unfold pairCopies
    rw [List.map_flatMap, List.flatMap_map]
    congr 1
    funext p
    rw [List.map_map]
    rfl
  rw [hkeys, List.nodup_flatMap]
  refine ⟨fun s _ => hnames.map fun n n' h => (Prod.mk.inj h).1, hslots.imp fun {s s'} hne => ?_⟩
  -- copies for two pairs go to different slots
  intro c hc hc'
  obtain ⟨n, -, rfl⟩ := List.mem_map.mp hc
  obtain ⟨n', -, h⟩ := List.mem_map.mp hc'
  exact hne (Prod.mk.inj h).2.symm

end Copies

/-! ## Whole runs -/

section Whole

variable {α : Type*} [Field α] {env : Env α} {q : Quant} {l : LiveLayer E} {n : TensorName}

/-- The slots of one tensor after the copies of a restage. -/
theorem updates_fullCopies {store : Finset (Fin E)} {selected : List (Fin E)} (hselected : selected.Nodup)
    (hn : n ∈ weightNames q) (s : ℕ) :
    updates l.tensors (fullCopies q store selected l) (n, s) =
      copyExpertsWeights (load q store (l.view n) none) selected (l.view n).slots s := by
  cases hs : selected[s]? with
  | some e =>
    rw [copyExpertsWeights_of_getElem? hselected hs]
    exact updates_of_mem fullCopies_nodup (mem_fullCopies.mpr ⟨hn, e, hs, rfl⟩)
  | none =>
    have hout : ∀ c ∈ fullCopies q store selected l, c.1 ≠ (n, s) := by
      rintro ⟨⟨n', s'⟩, b⟩ hc hns
      obtain ⟨rfl, rfl⟩ := Prod.mk.inj hns
      obtain ⟨-, e, he, -⟩ := mem_fullCopies.mp hc
      rw [hs] at he
      exact Option.some_ne_none e he.symm
    rw [updates_of_notMem hout]
    unfold copyExpertsWeights
    rw [hs]
    rfl

/-- **A whole restage is, tensor by tensor, `applyExpertSelection`.** -/
theorem fullPlan_view [LinearOrder α] {store : Finset (Fin E)} {selected : List (Fin E)} (hselected : selected.Nodup)
    (hq : q ≠ .mxfp4) (hn : n ∈ weightNames q) {k : ℕ} (hk : (fullPlan q store selected l).writes.length ≤ k) :
    applyExpertSelection env q (load q store (l.view n) none) selected (l.view n) =
      some (((fullPlan q store selected l).run env l k).view n) := by
  unfold applyExpertSelection Plan.run
  rw [if_neg hq, List.take_of_length_le hk]
  unfold Plan.writes
  rw [List.foldl_append, foldl_copies, foldl_tables]
  unfold fullPlan
  rw [if_neg hq]
  have hslots : copyExpertsWeights (load q store (l.view n) none) selected (l.view n).slots =
      fun s => updates l.tensors (fullCopies q store selected l) (n, s) := by
    funext s
    exact (updates_fullCopies hselected hn s).symm
  dsimp only
  rw [hslots]
  rfl

/-- The slots of one tensor after the copies of a swap. -/
theorem updates_pairCopies {m : Method E} {ctx : TensorName → Fin E → Option (Fin E)} {ps : List (Fin E × Fin E)}
    (hslots : (ps.map fun p => (m.logicalToGpuIndex p.2).toNat).Nodup) (hn : n ∈ weightNames q) (s : ℕ) :
    updates l.tensors (pairCopies m ctx (weightNames q) ps) (n, s) =
      updates (l.view n).slots (ps.map fun p => ((m.logicalToGpuIndex p.2).toNat, ctx n p.1)) s := by
  refine updates_row (pairCopies_nodup (weightNames_nodup q) hslots) ?_ (fun s b => ?_) s
  · rw [List.map_map]
    exact hslots
  · rw [mem_pairCopies, List.mem_map]
    constructor
    · rintro ⟨-, p, hp, rfl, rfl⟩
      exact ⟨p, hp, rfl⟩
    · rintro ⟨p, hp, heq⟩
      obtain ⟨rfl, rfl⟩ := Prod.mk.inj heq
      exact ⟨hn, p, hp, rfl, rfl⟩

/-- **A whole swap is, tensor by tensor, `swapInPlace`.** -/
theorem inPlacePlan_view {ctx : TensorName → Fin E → Option (Fin E)} {add drop : List (Fin E)}
    (hslots : ((add.zip drop).map fun p => (l.method.logicalToGpuIndex p.2).toNat).Nodup)
    (hseated : ∀ p ∈ add.zip drop, 0 ≤ l.method.logicalToGpuIndex p.2) (hn : n ∈ weightNames q) {k : ℕ}
    (hk : (inPlacePlan q ctx add drop l).2.writes.length ≤ k) :
    swapInPlace env (ctx n) add drop (l.view n) =
      (true, ((inPlacePlan q ctx add drop l).2.run env l k).view n) := by
  unfold swapInPlace Plan.run
  rw [List.take_of_length_le hk]
  unfold Plan.writes
  rw [List.foldl_append, foldl_copies, foldl_tables]
  unfold inPlacePlan
  rw [arrivalCopies_eq hseated, copyArrivals_eq (m := l.view n) hseated]
  have hrow : updates (l.view n).slots
      ((add.zip drop).map fun p => ((l.method.logicalToGpuIndex p.2).toNat, ctx n p.1)) =
      fun s => updates l.tensors (pairCopies l.method ctx (weightNames q) (add.zip drop)) (n, s) := by
    funext s
    exact (updates_pairCopies hslots hn s).symm
  dsimp only
  rw [if_pos rfl, if_pos rfl]
  dsimp only
  rw [List.foldl_append, foldl_flips]
  unfold LiveLayer.view at hrow ⊢
  dsimp only at hrow ⊢
  rw [hrow]
  rfl

end Whole

end ExpertServe
