import ExpertServe.Lib.PairSwap
import ExpertServe.Lib.Seating
import ExpertServe.Residency.Method

/-!
# The two ways to change the GPU set

`applyExpertSelection` copies every selected expert and renumbers the slots by position;
`applyExpertSelectionIncremental` gives each arrival the slot of a departure, or declines.
`swapGpuExperts` is what the controllers do: the second if it is switched on and accepts, else the first.

* `Method.Tabled m t`: the tables and their mirrors are those of the seating `t`;
* `Method.Honest`: every slot holds the weights of the expert the table names;
* `swapGpuExperts_spec`: a change of the GPU set keeps the tables, seats exactly the selection, and keeps
  the slots honest exactly when the store holds every expert that is taken from it.
-/

namespace ExpertServe

open Lib

variable {E : ℕ} {α : Type*} [Field α]

/-! ## The full restage -/

/-- `_apply_expert_selection`: copy the selection out of the scratch layer, then flip every table. It raises
for MXFP4, whose scratch layer has none of the INT4 tensors the last branch copies. -/
def applyExpertSelection [LinearOrder α] (env : Env α) (q : Quant) (ctx : Fin E → Option (Fin E))
    (selected : List (Fin E)) (m : Method E) : Option (Method E) :=
  if q = .mxfp4 then none
  else
    let (mask, index, occupants) := updateGpuExpertMappings selected
    some <| Method.refreshWrapper env
      { m with
        slots := copyExpertsWeights ctx selected m.slots
        gpuExpertsMask := mask
        gpuExpertsMaskCuda := mask
        logicalToGpuIndex := index
        logicalToGpuIndexCuda := index
        gpuIndexToLogical := occupants }

/-! ## The in-place swap -/

/-- Copy each arrival into the slot its departing partner holds; stop at a departure without a slot. -/
def copyArrivals (m : Method E) (ctx : Fin E → Option (Fin E)) :
    List (Fin E × Fin E) → (ℕ → Option (Fin E)) → Bool × (ℕ → Option (Fin E))
  | [], slots => (true, slots)
  | (a, d) :: ps, slots =>
    if m.logicalToGpuIndex d < 0 then (false, slots)
    else copyArrivals m ctx ps (Function.update slots (m.logicalToGpuIndex d).toNat (ctx a))

/-- Flip the mask and the two tables for one arrival and one departure, in the slot the departure had
before the swap. -/
def flipResidency (oldIndex : Fin E → ℤ) (tables : Finset (Fin E) × (Fin E → ℤ) × List (Fin E))
    (p : Fin E × Fin E) : Finset (Fin E) × (Fin E → ℤ) × List (Fin E) :=
  let slot := oldIndex p.2
  (insert p.1 (tables.1.erase p.2),
    Function.update (Function.update tables.2.1 p.2 (-1)) p.1 slot,
    tables.2.2.set slot.toNat p.1)

/-- Copy the arrivals, then flip the tables and mirrors; without a slot for every departure, give up. -/
def swapInPlace (env : Env α) (ctx : Fin E → Option (Fin E)) (add drop : List (Fin E)) (m : Method E) :
    Bool × Method E :=
  let (copied, slots) := copyArrivals m ctx (add.zip drop) m.slots
  if copied then
    let (mask, index, occupants) := (add.zip drop).foldl (flipResidency m.logicalToGpuIndex)
      (m.gpuExpertsMask, m.logicalToGpuIndex, m.gpuIndexToLogical)
    (true, Method.refreshWrapper env
      { m with
        slots := slots
        gpuExpertsMask := mask
        gpuExpertsMaskCuda := mask
        logicalToGpuIndex := index
        logicalToGpuIndexCuda := index
        gpuIndexToLogical := occupants })
  else (false, { m with slots := slots })

/-- `_apply_expert_selection_incremental`: whether it accepted, and the state it leaves. `ctxBuilt` says
that the shared context exists already. -/
def applyExpertSelectionIncremental [LinearOrder α] (env : Env α) (q : Quant) (ctxBuilt : Bool)
    (store : Finset (Fin E)) (selected : List (Fin E)) (m : Method E) : Bool × Method E :=
  if ctxBuilt ∧ q ≠ .w4afp8 then (false, m)
  else
    let add := whereTrue (selected.toFinset \ m.gpuExpertsMask)
    let drop := whereTrue (m.gpuExpertsMask \ selected.toFinset)
    if add = [] ∧ drop = [] then (true, m)
    else if add.length ≠ drop.length then (false, m)
    else if env.ktTierIncrementalMax < add.length then (false, m)
    else if q ≠ .w4afp8 then (false, m)
    else swapInPlace env (load q store m (some add)) add drop m

/-- A change of the GPU set as the controllers make it: in place if that is switched on and accepts, else
by a full restage. The flag says whether it completed or raised. -/
def swapGpuExperts [LinearOrder α] (env : Env α) (q : Quant) (ctxBuilt : Bool) (store : Finset (Fin E))
    (incremental : Bool) (selected : List (Fin E)) (m : Method E) : Bool × Method E :=
  let tried := if incremental then applyExpertSelectionIncremental env q ctxBuilt store selected m else (false, m)
  if tried.1 then tried
  else
    match applyExpertSelection env q (load q store tried.2 none) selected tried.2 with
    | some m' => (true, m')
    | none => (false, tried.2)

/-- A change of the GPU set, unless the set is already there. -/
def changeGpuSet [LinearOrder α] (env : Env α) (q : Quant) (ctxBuilt : Bool) (store : Finset (Fin E))
    (incremental : Bool) (selected : List (Fin E)) (m : Method E) : Bool × Method E :=
  if (whereTrue m.gpuExpertsMask).Perm selected then (true, m)
  else swapGpuExperts env q ctxBuilt store incremental selected m

/-! ## What a restage must keep -/

/-- The tables of a layer and their device mirrors are those of a seating. -/
structure Method.Tabled (m : Method E) (t : Seating (Fin E)) : Prop where
  mask : m.gpuExpertsMask = t.residents
  index : m.logicalToGpuIndex = t.index
  occupants : m.gpuIndexToLogical = t.occupants
  maskCuda : m.gpuExpertsMaskCuda = m.gpuExpertsMask
  indexCuda : m.logicalToGpuIndexCuda = m.logicalToGpuIndex

/-! Arrivals are the selected experts that are not resident, departures the residents that are not selected. -/

section Moved

variable {m : Method E} {t : Seating (Fin E)} {selected : Finset (Fin E)}

theorem Method.Tabled.arrivals_notMem (ht : m.Tabled t) :
    ∀ e ∈ whereTrue (selected \ m.gpuExpertsMask), e ∉ t.residents := by
  intro e he
  rw [← ht.mask]
  exact (Finset.mem_sdiff.mp (mem_whereTrue.mp he)).2

theorem Method.Tabled.departures_mem (ht : m.Tabled t) :
    ∀ e ∈ whereTrue (m.gpuExpertsMask \ selected), e ∈ t.residents := by
  intro e he
  rw [← ht.mask]
  exact (Finset.mem_sdiff.mp (mem_whereTrue.mp he)).1

/-- The residents without the departures, and the arrivals, are the selection. -/
theorem Method.Tabled.moved_eq_selected (ht : m.Tabled t) :
    t.residents \ (whereTrue (m.gpuExpertsMask \ selected)).toFinset ∪
      (whereTrue (selected \ m.gpuExpertsMask)).toFinset = selected := by
  rw [whereTrue_toFinset, whereTrue_toFinset, ← ht.mask, sdiff_sdiff_right_self, inf_comm]
  exact sup_inf_sdiff selected m.gpuExpertsMask

/-- Where the selection is not what is resident, something arrives or departs. -/
theorem moved_of_ne (hne : selected ≠ m.gpuExpertsMask) :
    ¬ (whereTrue (selected \ m.gpuExpertsMask) = [] ∧ whereTrue (m.gpuExpertsMask \ selected) = []) := by
  rintro ⟨hadd, hdrop⟩
  rw [whereTrue_eq_nil, Finset.sdiff_eq_empty_iff_subset] at hadd hdrop
  exact hne (hadd.antisymm hdrop)

end Moved

/-- Every slot holds the weights of the expert the table names. -/
def Method.Honest (m : Method E) : Prop :=
  ∀ s e, m.gpuIndexToLogical[s]? = some e → m.slots s = some e

/-- The layer with new slots and a new seating, its mirrors and its wrapper brought in step. -/
def Method.reseated (env : Env α) (m : Method E) (slots : ℕ → Option (Fin E)) (t : Seating (Fin E)) : Method E :=
  Method.refreshWrapper env
    { m with
      slots := slots
      gpuExpertsMask := t.residents
      gpuExpertsMaskCuda := t.residents
      logicalToGpuIndex := t.index
      logicalToGpuIndexCuda := t.index
      gpuIndexToLogical := t.occupants }

theorem Method.tabled_reseated (env : Env α) (m : Method E) (slots : ℕ → Option (Fin E)) (t : Seating (Fin E)) :
    (m.reseated env slots t).Tabled t := ⟨rfl, rfl, rfl, rfl, rfl⟩

/-- The tables are those of a seating of `n` residents. -/
def Method.Seats (n : ℕ) (m : Method E) : Prop :=
  ∃ t : Seating (Fin E), m.Tabled t ∧ t.occupants.length = n ∧ m.numGpuExperts = n

/-- The bytes the rank's own CPU store holds. -/
def Method.store (m : Method E) : Finset (Fin E) := (m.wrapper.map Wrapper.staged).getD ∅

/-- Rank 0 alone has a wrapper, and its pinned mask is the skip mask of the current tiers. -/
structure Method.Wired (env : Env α) (m : Method E) : Prop where
  owner : m.wrapper.isSome ↔ m.tpRank = 0
  mask : ∀ w, m.wrapper = some w → w.gpuExpertsMask = m.ktCpuSkipMask env

/-- A change of the GPU set leaves the RAM tier and the store alone. -/
structure Method.SameRam (m m' : Method E) : Prop where
  tpRank : m'.tpRank = m.tpRank
  ramMask : m'.ramExpertsMask = m.ramExpertsMask
  ramMaskCuda : m'.ramExpertsMaskCuda = m.ramExpertsMaskCuda
  store : m'.store = m.store

theorem Method.SameRam.refl (m : Method E) : m.SameRam m := ⟨rfl, rfl, rfl, rfl⟩

/-- A move in host RAM leaves the GPU set, its tables and its slots alone. -/
structure Method.SameTables (m m' : Method E) : Prop where
  numGpuExperts : m'.numGpuExperts = m.numGpuExperts
  mask : m'.gpuExpertsMask = m.gpuExpertsMask
  maskCuda : m'.gpuExpertsMaskCuda = m.gpuExpertsMaskCuda
  index : m'.logicalToGpuIndex = m.logicalToGpuIndex
  indexCuda : m'.logicalToGpuIndexCuda = m.logicalToGpuIndexCuda
  occupants : m'.gpuIndexToLogical = m.gpuIndexToLogical
  slots : m'.slots = m.slots

theorem Method.SameTables.trans {m m' m'' : Method E} (h : m.SameTables m') (h' : m'.SameTables m'') :
    m.SameTables m'' :=
  ⟨h'.numGpuExperts.trans h.numGpuExperts, h'.mask.trans h.mask, h'.maskCuda.trans h.maskCuda,
    h'.index.trans h.index, h'.indexCuda.trans h.indexCuda, h'.occupants.trans h.occupants,
    h'.slots.trans h.slots⟩

theorem Method.SameTables.tabled {m m' : Method E} {t : Seating (Fin E)} (h : m.SameTables m') (ht : m.Tabled t) :
    m'.Tabled t := by
  refine ⟨h.mask.trans ht.mask, h.index.trans ht.index, h.occupants.trans ht.occupants, ?_, ?_⟩
  · rw [h.maskCuda, h.mask, ht.maskCuda]
  · rw [h.indexCuda, h.index, ht.indexCuda]

theorem Method.SameTables.seats {n : ℕ} {m m' : Method E} (h : m.SameTables m') (hm : m.Seats n) : m'.Seats n := by
  obtain ⟨t, ht, hlen, hnum⟩ := hm
  exact ⟨t, h.tabled ht, hlen, h.numGpuExperts.trans hnum⟩

theorem Method.SameTables.honest_iff {m m' : Method E} (h : m.SameTables m') : m'.Honest ↔ m.Honest := by
  unfold Method.Honest
  rw [h.occupants, h.slots]

/-- Refreshing the wrapper puts the pinned mask in step with whatever the tiers are. -/
theorem Method.refreshWrapper_wired {env : Env α} {m : Method E} (h : m.wrapper.isSome ↔ m.tpRank = 0) :
    (m.refreshWrapper env).Wired env := by
  by_cases h0 : m.tpRank = 0
  · obtain ⟨w, hw⟩ := Option.isSome_iff_exists.mp (h.mpr h0)
    have hnew : (m.refreshWrapper env).wrapper = some { w with gpuExpertsMask := m.ktCpuSkipMask env } := by
      simp [Method.refreshWrapper, h0, hw, updateKtWrapperMasks]
    refine ⟨?_, fun w' hw' => ?_⟩
    · rw [hnew]
      exact ⟨fun _ => h0, fun _ => rfl⟩
    · rw [hnew] at hw'
      obtain rfl := Option.some.inj hw'
      rfl
  · have hnone : m.wrapper = none := by
      rw [← Option.not_isSome_iff_eq_none]
      exact fun hs => h0 (h.mp hs)
    have hnew : (m.refreshWrapper env).wrapper = none := by
      simp [Method.refreshWrapper, h0, hnone]
    refine ⟨?_, fun w' hw' => ?_⟩
    · rw [hnew]
      exact ⟨fun hs => absurd hs Bool.false_ne_true, fun h0' => absurd h0' h0⟩
    · rw [hnew] at hw'
      exact absurd hw'.symm (Option.some_ne_none w')

theorem Method.store_refreshWrapper (env : Env α) (m : Method E) : (m.refreshWrapper env).store = m.store := by
  unfold Method.store Method.refreshWrapper updateKtWrapperMasks
  by_cases h0 : m.tpRank = 0
  · cases m.wrapper <;> simp [h0]
  · simp [h0]

theorem Method.sameRam_reseated (env : Env α) (m : Method E) (slots : ℕ → Option (Fin E))
    (t : Seating (Fin E)) : m.SameRam (m.reseated env slots t) :=
  ⟨rfl, rfl, rfl, Method.store_refreshWrapper env _⟩

theorem Method.wired_reseated {env : Env α} {m : Method E} (slots : ℕ → Option (Fin E)) (t : Seating (Fin E))
    (h : m.Wired env) : (m.reseated env slots t).Wired env :=
  Method.refreshWrapper_wired h.owner

/-- The experts whose bytes a change of the GPU set takes from the CPU store. -/
def takenFromStore (q : Quant) (m : Method E) (selected : List (Fin E)) : Finset (Fin E) :=
  match q with
  | .mxfp4 => ∅
  | .int4 => selected.toFinset
  | _ => selected.toFinset \ m.gpuExpertsMask

/-- Every quantisation but INT4 Marlin takes arrivals only. -/
theorem takenFromStore_subset {q : Quant} (hq : q ≠ .int4) (m : Method E) (selected : List (Fin E)) :
    takenFromStore q m selected ⊆ selected.toFinset \ m.gpuExpertsMask := by
  cases q with
  | int4 => exact absurd rfl hq
  | mxfp4 => exact Finset.empty_subset _
  | w4afp8 => exact subset_rfl
  | fp8 => exact subset_rfl
  | fp8Channel => exact subset_rfl
  | bf16 => exact subset_rfl

section Full

/-- The tables of a list of distinct experts are those of its seating. -/
theorem logicalToDstIndex_eq {selected : List (Fin E)} (h : selected.Nodup) (e : Fin E) :
    logicalToDstIndex selected e = if e ∈ selected then some (selected.idxOf e) else none := by
  have hkeys : (selected.zipIdx.map fun p => (p.1, some p.2)).map Prod.fst = selected := by
    rw [List.map_map]
    exact List.zipIdx_map_fst 0 selected
  have hnodup : ((selected.zipIdx.map fun p => (p.1, some p.2)).map Prod.fst).Nodup := by
    rw [hkeys]
    exact h
  unfold logicalToDstIndex
  by_cases he : e ∈ selected
  · have hmem : (e, some (selected.idxOf e)) ∈ selected.zipIdx.map fun p => (p.1, some p.2) := by
      refine List.mem_map.mpr ⟨(e, selected.idxOf e), ?_, rfl⟩
      rw [List.mem_zipIdx_iff_getElem?, List.getElem?_eq_getElem (List.idxOf_lt_length_of_mem he),
        List.getElem_idxOf]
    rw [if_pos he]
    exact updates_of_mem hnodup hmem
  · rw [if_neg he]
    refine updates_of_notMem fun p hp hpe => he ?_
    rw [← hkeys, ← hpe]
    exact List.mem_map_of_mem hp

theorem updateGpuExpertMappings_index {selected : List (Fin E)} (h : selected.Nodup) :
    (updateGpuExpertMappings selected).2.1 = (Seating.mk selected h).index := by
  funext e
  simp only [updateGpuExpertMappings, logicalToDstIndex_eq h]
  by_cases he : e ∈ selected
  · rw [if_pos he, Seating.index_of_mem he]
  · rw [if_neg he, Seating.index_of_notMem he]

/-- A copy of distinct experts puts each one's scratch bytes at its position and nothing elsewhere. -/
theorem copyExpertsWeights_of_getElem? {src : Fin E → Option (Fin E)} {selected : List (Fin E)}
    {slots : ℕ → Option (Fin E)} (h : selected.Nodup) {s : ℕ} {e : Fin E} (hs : selected[s]? = some e) :
    copyExpertsWeights src selected slots s = src e := by
  obtain ⟨hlt, rfl⟩ := List.getElem?_eq_some_iff.mp hs
  have hmem : selected[s] ∈ selected := List.getElem_mem hlt
  simp only [copyExpertsWeights, hs, logicalToDstIndex_eq h, if_pos hmem, h.idxOf_getElem, if_true]

/-- What a full restage does: the selection, numbered by position, and its bytes out of the scratch layer. -/
theorem applyExpertSelection_spec [LinearOrder α] (env : Env α) {q : Quant} (ctx : Fin E → Option (Fin E))
    {selected : List (Fin E)} (m : Method E) (hq : q ≠ .mxfp4) (h : selected.Nodup) :
    ∃ slots, applyExpertSelection env q ctx selected m = some (m.reseated env slots ⟨selected, h⟩) ∧
      ((m.reseated env slots ⟨selected, h⟩).Honest ↔ ∀ e ∈ selected, ctx e = some e) := by
  refine ⟨copyExpertsWeights ctx selected m.slots, ?_, ?_⟩
  · rw [applyExpertSelection, if_neg hq]
    simp only [Method.reseated, ← updateGpuExpertMappings_index h]
    rfl
  · constructor
    · intro hhon e he
      have hs : selected[selected.idxOf e]? = some e := by
        rw [List.getElem?_eq_getElem (List.idxOf_lt_length_of_mem he), List.getElem_idxOf]
      have hrow : copyExpertsWeights ctx selected m.slots (selected.idxOf e) = some e := hhon _ _ hs
      rwa [copyExpertsWeights_of_getElem? h hs] at hrow
    · intro hctx s e hs
      change selected[s]? = some e at hs
      change copyExpertsWeights ctx selected m.slots s = some e
      rw [copyExpertsWeights_of_getElem? h hs]
      exact hctx e (List.mem_of_getElem? hs)

end Full

/-! ## What the scratch layer holds -/

section Load

variable {q : Quant} {store : Finset (Fin E)} {m : Method E} {t : Seating (Fin E)} {e : Fin E}

theorem cpuBytes_eq_some_iff : cpuBytes store e = some e ↔ e ∈ store := by
  unfold cpuBytes
  by_cases h : e ∈ store <;> simp [h]

theorem residentRow_eq (ht : m.Tabled t) (hhon : m.Honest) (he : e ∈ m.gpuExpertsMask) :
    m.residentRow e = some e := by
  rw [ht.mask, Seating.mem_residents] at he
  refine hhon _ _ ?_
  rw [ht.occupants, ht.index]
  exact Seating.getElem?_index he

/-- The scratch layer holds a whole selection exactly when the store holds what is taken from it. -/
theorem load_none_iff (hq : q ≠ .mxfp4) (ht : m.Tabled t) (hhon : m.Honest) {selected : List (Fin E)} :
    (∀ e ∈ selected, load q store m none e = some e) ↔ takenFromStore q m selected ⊆ store := by
  have hother : (∀ e ∈ selected, (if e ∈ m.gpuExpertsMask then m.residentRow e else cpuBytes store e) = some e) ↔
      selected.toFinset \ m.gpuExpertsMask ⊆ store := by
    constructor
    · intro h e he
      obtain ⟨hsel, hmask⟩ := Finset.mem_sdiff.mp he
      have hrow := h e (List.mem_toFinset.mp hsel)
      rw [if_neg hmask] at hrow
      exact cpuBytes_eq_some_iff.mp hrow
    · intro h e he
      by_cases hmask : e ∈ m.gpuExpertsMask
      · rw [if_pos hmask]
        exact residentRow_eq ht hhon hmask
      · rw [if_neg hmask]
        exact cpuBytes_eq_some_iff.mpr (h (Finset.mem_sdiff.mpr ⟨List.mem_toFinset.mpr he, hmask⟩))
  cases q with
  | mxfp4 => exact absurd rfl hq
  | int4 =>
    constructor
    · intro h e he
      exact cpuBytes_eq_some_iff.mp (h e (List.mem_toFinset.mp he))
    · intro h e he
      exact cpuBytes_eq_some_iff.mpr (h (List.mem_toFinset.mpr he))
  | w4afp8 => exact hother
  | fp8 => exact hother
  | fp8Channel => exact hother
  | bf16 => exact hother

/-- The narrowed scratch layer holds the experts asked for exactly when the store does. -/
theorem load_some_iff {add : List (Fin E)} :
    (∀ e ∈ add, load .w4afp8 store m (some add) e = some e) ↔ ∀ e ∈ add, e ∈ store := by
  refine forall₂_congr fun e he => ?_
  rw [load, if_pos he]
  exact cpuBytes_eq_some_iff

end Load

/-! ## The in-place swap keeps a seating -/

section InPlace

/-- With a slot for every departure the arrivals are all copied. -/
theorem copyArrivals_eq {m : Method E} {ctx : Fin E → Option (Fin E)} {ps : List (Fin E × Fin E)}
    {slots : ℕ → Option (Fin E)} (h : ∀ p ∈ ps, 0 ≤ m.logicalToGpuIndex p.2) :
    copyArrivals m ctx ps slots =
      (true, updates slots (ps.map fun p => ((m.logicalToGpuIndex p.2).toNat, ctx p.1))) := by
  induction ps generalizing slots with
  | nil => rfl
  | cons p ps ih =>
    obtain ⟨a, d⟩ := p
    have hd : ¬ m.logicalToGpuIndex d < 0 := not_lt.mpr (h (a, d) List.mem_cons_self)
    rw [copyArrivals, if_neg hd, ih fun q hq => h q (List.mem_cons_of_mem _ hq), List.map_cons, updates_cons]

/-- **Flipping the tables of a seating, pair by pair, gives the tables of a seating**, of the exchanged
residents, in which each arrival sits where its departure sat and nobody else has moved. -/
theorem flips_seating {t : Seating (Fin E)} {ps : List (Fin E × Fin E)} {oldIndex : Fin E → ℤ}
    (hps : Swaps t.residents ps) (hold : ∀ p ∈ ps, oldIndex p.2 = t.index p.2) :
    ∃ t' : Seating (Fin E),
      ps.foldl (flipResidency oldIndex) (t.residents, t.index, t.occupants) =
        (t'.residents, t'.index, t'.occupants) ∧
      t'.residents = exchange t.residents ps ∧
      ∀ s, t'.occupants[s]? =
        updates (fun s => t.occupants[s]?) (ps.map fun p => ((oldIndex p.2).toNat, some p.1)) s := by
  induction ps generalizing t with
  | nil => exact ⟨t, rfl, rfl, fun s => rfl⟩
  | cons p ps ih =>
    have hin : p.1 ∉ t.occupants := fun h => hps.fst_notMem p List.mem_cons_self (Seating.mem_residents.mpr h)
    have hout : p.2 ∈ t.occupants := Seating.mem_residents.mp (hps.snd_mem p List.mem_cons_self)
    have hslot : oldIndex p.2 = t.index p.2 := hold p List.mem_cons_self
    have hres : (t.reseat p.1 p.2 hin).residents = insert p.1 (t.residents.erase p.2) :=
      Seating.residents_reseat hout
    have hflip : flipResidency oldIndex (t.residents, t.index, t.occupants) p =
        ((t.reseat p.1 p.2 hin).residents, (t.reseat p.1 p.2 hin).index, (t.reseat p.1 p.2 hin).occupants) := by
      rw [hres, Seating.index_reseat hout, flipResidency, hslot]
      simp only [Seating.reseat, Seating.index_of_mem hout, Int.toNat_natCast]
    have htail : ∀ q ∈ ps, oldIndex q.2 = (t.reseat p.1 p.2 hin).index q.2 := by
      intro q hq
      have hq1 : q.2 ≠ p.1 := fun he =>
        hps.fst_notMem p List.mem_cons_self (he ▸ hps.snd_mem q (List.mem_cons_of_mem _ hq))
      have hq2 : q.2 ≠ p.2 := fun he =>
        (List.nodup_cons.mp hps.nodup_snd).1 (List.mem_map.mpr ⟨q, hq, he⟩)
      rw [Seating.index_reseat hout, Function.update_of_ne hq1, Function.update_of_ne hq2]
      exact hold q (List.mem_cons_of_mem _ hq)
    obtain ⟨t', hfold, hres', hocc⟩ := ih (hres ▸ hps.tail) htail
    refine ⟨t', ?_, ?_, fun s => ?_⟩
    · rw [List.foldl_cons, hflip, hfold]
    · rw [hres', hres, exchange_cons]
    · rw [hocc, List.map_cons, updates_cons]
      congr 1
      funext s
      rw [Seating.getElem?_reseat hout, Function.update_apply, hslot]
      have hnn : 0 ≤ t.index p.2 := Seating.index_nonneg_iff.mpr hout
      by_cases hs : s = (t.index p.2).toNat
      · rw [if_pos hs, if_pos (by omega)]
      · rw [if_neg hs, if_neg (by omega)]

/-- Slots written at the keys of a swap agree with the occupants written there exactly when each arrival's
bytes are its own. -/
theorem updates_agree_iff {occ slots : ℕ → Option (Fin E)} {ctx : Fin E → Option (Fin E)}
    {key : Fin E × Fin E → ℕ} {ps : List (Fin E × Fin E)} (hkeys : (ps.map key).Nodup)
    (hbase : ∀ s e, occ s = some e → slots s = some e) :
    (∀ s e, updates occ (ps.map fun p => (key p, some p.1)) s = some e →
        updates slots (ps.map fun p => (key p, ctx p.1)) s = some e) ↔
      ∀ p ∈ ps, ctx p.1 = some p.1 := by
  have hocc : ((ps.map fun p => (key p, some p.1)).map Prod.fst).Nodup := by
    rw [List.map_map]
    exact hkeys
  have hslots : ((ps.map fun p => (key p, ctx p.1)).map Prod.fst).Nodup := by
    rw [List.map_map]
    exact hkeys
  have hoccAt : ∀ p ∈ ps, updates occ (ps.map fun p => (key p, some p.1)) (key p) = some p.1 := fun p hp =>
    updates_of_mem hocc (List.mem_map_of_mem (f := fun p : Fin E × Fin E => (key p, some p.1)) hp)
  have hslotsAt : ∀ p ∈ ps, updates slots (ps.map fun p => (key p, ctx p.1)) (key p) = ctx p.1 := fun p hp =>
    updates_of_mem hslots (List.mem_map_of_mem (f := fun p : Fin E × Fin E => (key p, ctx p.1)) hp)
  constructor
  · intro h p hp
    rw [← hslotsAt p hp]
    exact h _ _ (hoccAt p hp)
  · intro h s e hs
    by_cases hkey : ∃ p ∈ ps, key p = s
    · obtain ⟨p, hp, rfl⟩ := hkey
      rw [hoccAt p hp] at hs
      rw [hslotsAt p hp, h p hp, hs]
    · have hne1 : ∀ q ∈ ps.map fun p => (key p, some p.1), q.1 ≠ s := by
        rintro q hq rfl
        obtain ⟨p, hp, rfl⟩ := List.mem_map.mp hq
        exact hkey ⟨p, hp, rfl⟩
      have hne2 : ∀ q ∈ ps.map fun p => (key p, ctx p.1), q.1 ≠ s := by
        rintro q hq rfl
        obtain ⟨p, hp, rfl⟩ := List.mem_map.mp hq
        exact hkey ⟨p, hp, rfl⟩
      rw [updates_of_notMem hne1] at hs
      rw [updates_of_notMem hne2]
      exact hbase s e hs

/-- The slots the departures of a swap hold are distinct. -/
theorem nodup_departure_slots {t : Seating (Fin E)} {ps : List (Fin E × Fin E)} (hps : Swaps t.residents ps) :
    (ps.map fun p => (t.index p.2).toNat).Nodup := by
  have hmap : (ps.map fun p => (t.index p.2).toNat) = (ps.map Prod.snd).map fun d => (t.index d).toNat := by
    rw [List.map_map]
    rfl
  rw [hmap]
  refine hps.nodup_snd.map_on fun d hd d' hd' heq => ?_
  have hseat : ∀ d ∈ ps.map Prod.snd, d ∈ t.occupants := by
    intro d hd
    obtain ⟨p, hp, rfl⟩ := List.mem_map.mp hd
    exact Seating.mem_residents.mp (hps.snd_mem p hp)
  have hget := Seating.getElem?_index (hseat d hd)
  rw [heq, Seating.getElem?_index (hseat d' hd')] at hget
  exact (Option.some.inj hget).symm

/-- The departures of a swap of seated experts are in the tables, each in a slot of its own. -/
theorem Method.Tabled.departures_seated {m : Method E} {t : Seating (Fin E)} {ps : List (Fin E × Fin E)}
    (ht : m.Tabled t) (hps : Swaps t.residents ps) :
    (∀ p ∈ ps, 0 ≤ m.logicalToGpuIndex p.2) ∧ (ps.map fun p => (m.logicalToGpuIndex p.2).toNat).Nodup ∧
      ∀ p ∈ ps, m.gpuIndexToLogical[(m.logicalToGpuIndex p.2).toNat]? = some p.2 := by
  have hseat : ∀ p ∈ ps, p.2 ∈ t.occupants := fun p hp => Seating.mem_residents.mp (hps.snd_mem p hp)
  rw [ht.index, ht.occupants]
  exact ⟨fun p hp => Seating.index_nonneg_iff.mpr (hseat p hp), nodup_departure_slots hps,
    fun p hp => Seating.getElem?_index (hseat p hp)⟩

/-- The swap of an add list for a drop list of the same length: the seating changes as asked, and the slots
stay honest exactly when the scratch layer holds the arrivals. -/
theorem swapInPlace_spec (env : Env α) (ctx : Fin E → Option (Fin E)) {add drop : List (Fin E)} {m : Method E}
    {t : Seating (Fin E)} (ht : m.Tabled t) (hadd : add.Nodup) (hdrop : drop.Nodup)
    (hlen : add.length = drop.length) (hnew : ∀ e ∈ add, e ∉ t.residents) (hold : ∀ e ∈ drop, e ∈ t.residents) :
    ∃ slots t', swapInPlace env ctx add drop m = (true, m.reseated env slots t') ∧
      t'.residents = (t.residents \ drop.toFinset) ∪ add.toFinset ∧
      (m.Honest → ((m.reseated env slots t').Honest ↔ ∀ e ∈ add, ctx e = some e)) := by
  have hps : Swaps t.residents (add.zip drop) := Swaps.zip hadd hdrop hnew hold
  obtain ⟨hslot, hkeys, -⟩ := ht.departures_seated hps
  obtain ⟨t', hfold, hres, hocc⟩ := flips_seating hps (fun p _ => congrFun ht.index p.2)
  refine ⟨updates m.slots ((add.zip drop).map fun p => ((m.logicalToGpuIndex p.2).toNat, ctx p.1)), t', ?_, ?_, ?_⟩
  · have hstart : (m.gpuExpertsMask, m.logicalToGpuIndex, m.gpuIndexToLogical) =
        (t.residents, t.index, t.occupants) := by
      rw [ht.mask, ht.index, ht.occupants]
    unfold swapInPlace
    rw [copyArrivals_eq hslot, hstart, hfold]
    rfl
  · rw [hres, hps.exchange_eq, outs_zip hlen, ins_zip hlen]
  · intro hhon
    have hbase : ∀ s e, t.occupants[s]? = some e → m.slots s = some e := fun s e hs =>
      hhon s e (by rw [ht.occupants]; exact hs)
    have harrive : (∀ p ∈ add.zip drop, ctx p.1 = some p.1) ↔ ∀ e ∈ add, ctx e = some e := by
      refine ⟨fun h e he => ?_, fun h p hp => h p.1 (List.of_mem_zip hp).1⟩
      rw [← List.map_fst_zip hlen.le] at he
      obtain ⟨p, hp, rfl⟩ := List.mem_map.mp he
      exact h p hp
    rw [← harrive, ← updates_agree_iff hkeys hbase]
    simp only [← hocc]
    rfl

/-- **What an in-place change does**: it declines and changes nothing, or seats exactly the selection, and the
slots stay honest exactly when the store holds the arrivals. -/
theorem applyExpertSelectionIncremental_spec [LinearOrder α] (env : Env α) (q : Quant) (ctxBuilt : Bool)
    (store : Finset (Fin E)) {selected : List (Fin E)} {m : Method E} {t : Seating (Fin E)} (ht : m.Tabled t)
    (hne : selected.toFinset ≠ m.gpuExpertsMask) :
    applyExpertSelectionIncremental env q ctxBuilt store selected m = (false, m) ∨
    ∃ slots t', q = .w4afp8 ∧
      applyExpertSelectionIncremental env q ctxBuilt store selected m = (true, m.reseated env slots t') ∧
      t'.residents = selected.toFinset ∧
      (m.Honest → ((m.reseated env slots t').Honest ↔ takenFromStore q m selected ⊆ store)) := by
  unfold applyExpertSelectionIncremental
  by_cases hctx : ctxBuilt ∧ q ≠ .w4afp8
  · exact Or.inl (if_pos hctx)
  rw [if_neg hctx]
  dsimp only
  rw [if_neg (moved_of_ne hne)]
  by_cases hlen : (whereTrue (selected.toFinset \ m.gpuExpertsMask)).length ≠
      (whereTrue (m.gpuExpertsMask \ selected.toFinset)).length
  · exact Or.inl (if_pos hlen)
  rw [if_neg hlen]
  by_cases hmax : env.ktTierIncrementalMax < (whereTrue (selected.toFinset \ m.gpuExpertsMask)).length
  · exact Or.inl (if_pos hmax)
  rw [if_neg hmax]
  by_cases hq : q ≠ .w4afp8
  · exact Or.inl (if_pos hq)
  rw [if_neg hq]
  push Not at hlen hq
  subst hq
  obtain ⟨slots, t', heq, hres, hhonest⟩ := swapInPlace_spec env
    (load .w4afp8 store m (some (whereTrue (selected.toFinset \ m.gpuExpertsMask)))) ht (whereTrue_nodup _)
    (whereTrue_nodup _) hlen ht.arrivals_notMem ht.departures_mem
  refine Or.inr ⟨slots, t', rfl, heq, ?_, fun hhon => ?_⟩
  · rw [hres]
    exact ht.moved_eq_selected
  · rw [hhonest hhon, load_some_iff]
    exact ⟨fun h e he => h e (mem_whereTrue.mpr he), fun h e he => h (mem_whereTrue.mp he)⟩

end InPlace

/-! ## A change of the GPU set -/

section Swap

variable [LinearOrder α] (env : Env α) {q : Quant} (ctxBuilt incremental : Bool) (store : Finset (Fin E))
  {selected : List (Fin E)} {m : Method E} {t : Seating (Fin E)}

/-- Under MXFP4 a change raises and leaves the layer as it was. -/
theorem swapGpuExperts_mxfp4 (ht : m.Tabled t) (hne : selected.toFinset ≠ m.gpuExpertsMask) :
    swapGpuExperts env .mxfp4 ctxBuilt store incremental selected m = (false, m) := by
  have htried : (if incremental then applyExpertSelectionIncremental env .mxfp4 ctxBuilt store selected m
      else (false, m)) = (false, m) := by
    cases incremental with
    | false => rfl
    | true =>
      rcases applyExpertSelectionIncremental_spec env .mxfp4 ctxBuilt store ht hne with h | ⟨_, _, hq, _⟩
      · exact h
      · exact absurd hq (by decide)
  simp only [swapGpuExperts, htried]
  rfl

/-- **What a change of the GPU set does.** It seats exactly the selection, whichever path it takes, and the
slots stay honest exactly when the store holds every expert that is taken from it. -/
theorem swapGpuExperts_spec (hq : q ≠ .mxfp4) (ht : m.Tabled t) (hnodup : selected.Nodup)
    (hne : selected.toFinset ≠ m.gpuExpertsMask) :
    ∃ slots t', swapGpuExperts env q ctxBuilt store incremental selected m = (true, m.reseated env slots t') ∧
      t'.residents = selected.toFinset ∧
      (m.Honest → ((m.reseated env slots t').Honest ↔ takenFromStore q m selected ⊆ store)) := by
  have hfull : ∃ slots t',
      (match applyExpertSelection env q (load q store m none) selected m with
        | some m' => (true, m')
        | none => (false, m)) = (true, m.reseated env slots t') ∧
      t'.residents = selected.toFinset ∧
      (m.Honest → ((m.reseated env slots t').Honest ↔ takenFromStore q m selected ⊆ store)) := by
    obtain ⟨slots, heq, hhonest⟩ := applyExpertSelection_spec env (load q store m none) m hq hnodup
    refine ⟨slots, ⟨selected, hnodup⟩, by rw [heq], rfl, fun hhon => ?_⟩
    rw [hhonest, load_none_iff hq ht hhon]
  cases incremental with
  | false => exact hfull
  | true =>
    rcases applyExpertSelectionIncremental_spec env q ctxBuilt store ht hne with h | ⟨slots, t', -, h, hres, hhonest⟩
    · simp only [swapGpuExperts, if_true, h]
      exact hfull
    · refine ⟨slots, t', ?_, hres, hhonest⟩
      simp only [swapGpuExperts, if_true, h]

/-- What a change needs of the CPU store: every expert that is taken from it, if the set changes at all. -/
def SourcesStaged (q : Quant) (store : Finset (Fin E)) (selected : List (Fin E)) (m : Method E) : Prop :=
  selected.toFinset = m.gpuExpertsMask ∨ takenFromStore q m selected ⊆ store

theorem whereTrue_perm_iff {mask : Finset (Fin E)} (h : selected.Nodup) :
    (whereTrue mask).Perm selected ↔ selected.toFinset = mask := by
  constructor
  · intro hp
    rw [← List.toFinset_eq_of_perm _ _ hp, whereTrue_toFinset]
  · intro he
    refine (List.perm_ext_iff_of_nodup (whereTrue_nodup mask) h).mpr fun e => ?_
    rw [mem_whereTrue, ← he, List.mem_toFinset]

/-- What a change of the GPU set to `selected` leaves of a tabled layer: tables of a seating again, unless the copy
raises of the selection, and the RAM tier and the store as they were. -/
structure GpuSetChanged (env : Env α) (q : Quant) (store : Finset (Fin E)) (selected : List (Fin E)) (m : Method E)
    (r : Bool × Method E) : Prop where
  completes : r.1 = true ↔ q ≠ .mxfp4 ∨ selected.toFinset = m.gpuExpertsMask
  tabled : ∃ t, r.2.Tabled t
  numGpuExperts : r.2.numGpuExperts = m.numGpuExperts
  gpuMask : r.2.gpuExpertsMask = if q = .mxfp4 then m.gpuExpertsMask else selected.toFinset
  ram : m.SameRam r.2
  wired : m.Wired env → r.2.Wired env
  honest : m.Honest → (r.2.Honest ↔ SourcesStaged q store selected m)

/-- **One change of the GPU set** to any list of distinct experts. -/
theorem changeGpuSet_changed (q : Quant) (ht : ∃ t, m.Tabled t) (hnodup : selected.Nodup) :
    GpuSetChanged env q store selected m (changeGpuSet env q ctxBuilt store incremental selected m) := by
  obtain ⟨t, ht⟩ := ht
  unfold changeGpuSet
  by_cases hsame : selected.toFinset = m.gpuExpertsMask
  · rw [if_pos ((whereTrue_perm_iff hnodup).mpr hsame)]
    refine ⟨⟨fun _ => Or.inr hsame, fun _ => rfl⟩, ⟨t, ht⟩, rfl, ?_, Method.SameRam.refl m, id,
      fun hhon => ⟨fun _ => Or.inl hsame, fun _ => hhon⟩⟩
    rw [hsame, ite_self]
  rw [if_neg ((whereTrue_perm_iff hnodup).not.mpr hsame)]
  by_cases hq : q = .mxfp4
  · subst hq
    rw [swapGpuExperts_mxfp4 env ctxBuilt incremental store ht hsame]
    refine ⟨⟨fun h => absurd h Bool.false_ne_true, fun h => ?_⟩, ⟨t, ht⟩, rfl, rfl, Method.SameRam.refl m, id,
      fun hhon => ⟨fun _ => Or.inr (Finset.empty_subset _), fun _ => hhon⟩⟩
    exact absurd h (by simpa using hsame)
  obtain ⟨slots, t', heq, hres, hhonest⟩ := swapGpuExperts_spec env ctxBuilt incremental store hq ht hnodup hsame
  rw [heq]
  refine ⟨⟨fun _ => Or.inl hq, fun _ => rfl⟩, ⟨t', m.tabled_reseated env slots t'⟩, rfl, ?_,
    m.sameRam_reseated env slots t', Method.wired_reseated slots t', fun hhon => ?_⟩
  · rw [if_neg hq]
    exact hres
  · rw [hhonest hhon]
    exact ⟨Or.inr, fun h => h.resolve_left hsame⟩

/-- A tabled layer seats as many as its mask has. -/
theorem seats_iff {n : ℕ} (ht : ∃ t, m.Tabled t) :
    m.Seats n ↔ m.gpuExpertsMask.card = n ∧ m.numGpuExperts = n := by
  obtain ⟨t, ht⟩ := ht
  have hcard : t.occupants.length = m.gpuExpertsMask.card := by rw [← Seating.card_residents, ht.mask]
  constructor
  · rintro ⟨t', ht', hlen, hnum⟩
    exact ⟨by rw [ht'.mask, Seating.card_residents, hlen], hnum⟩
  · rintro ⟨hmask, hnum⟩
    exact ⟨t, ht, hcard.trans hmask, hnum⟩

/-- **One change of the GPU set to `n` experts**: it completes unless the copy raises, in which case nothing
has changed; the tables stay tables of `n` residents, now the selection; the RAM tier and the store are left
alone; and honest slots stay honest exactly when the sources are staged. -/
theorem changeGpuSet_spec {n : ℕ} (q : Quant) (hm : m.Seats n) (hnodup : selected.Nodup)
    (hsize : selected.length = n) :
    ((changeGpuSet env q ctxBuilt store incremental selected m).1 = true ↔
      q ≠ .mxfp4 ∨ selected.toFinset = m.gpuExpertsMask) ∧
    (changeGpuSet env q ctxBuilt store incremental selected m).2.Seats n ∧
    (changeGpuSet env q ctxBuilt store incremental selected m).2.gpuExpertsMask =
      (if q = .mxfp4 then m.gpuExpertsMask else selected.toFinset) ∧
    m.SameRam (changeGpuSet env q ctxBuilt store incremental selected m).2 ∧
    (m.Wired env → (changeGpuSet env q ctxBuilt store incremental selected m).2.Wired env) ∧
    (m.Honest → ((changeGpuSet env q ctxBuilt store incremental selected m).2.Honest ↔
      SourcesStaged q store selected m)) := by
  have htabled : ∃ t, m.Tabled t := hm.imp fun t h => h.1
  obtain ⟨hmask, hnum⟩ := (seats_iff htabled).mp hm
  have h := changeGpuSet_changed env ctxBuilt incremental store q htabled hnodup
  refine ⟨h.completes, (seats_iff h.tabled).mpr ⟨?_, h.numGpuExperts.trans hnum⟩, h.gpuMask, h.ram, h.wired, h.honest⟩
  rw [h.gpuMask]
  split
  · exact hmask
  · rw [List.toFinset_card_of_nodup hnodup, hsize]

end Swap

end ExpertServe
