import ExpertServe.Residency.Writes

/-!
# A change of the GPU set that is cut short

The callers of both paths catch what they raise and go on serving the layer as it is left. A layer may be served
when its tables `Describe` the bytes in its slots; a change copies into live slots before it writes the tables, and
there is no undo.

* `LiveLayer.Described`: tables, mirrors and the wrapper's mask fit together and fit the slots of every tensor;
* `Attempt`, `LiveLayer.attempt`: a change that raises after some number of its writes;
* `Publishes`: what a plan of either path does to a described layer, and until when it has published nothing;
* `attempts_described_iff`: attempts keep a layer described exactly when each is atomic, which one is that has
  changed the bytes of no slot, or has made all its writes but an idle refresh of the wrapper, out of a store that
  holds what it takes.
-/

namespace ExpertServe

open Lib

variable {E n : ℕ} {α : Type*} [Field α]

/-- The tables, the mirrors and the wrapper's mask of a layer describe the bytes in the slots of each tensor. -/
structure LiveLayer.Described (env : Env α) (q : Quant) (l : LiveLayer E) : Prop where
  tabled : ∃ t, l.method.Tabled t
  wired : l.method.Wired env
  honest : ∀ name ∈ weightNames q, (l.view name).Honest

/-- An attempt to change the GPU set: the change, and how many writes it makes before it raises. -/
structure Attempt (E n : ℕ) extends Change E n where
  stop : ℕ

/-- An attempt to swap leaves the layer as its writes so far have made it. -/
def LiveLayer.attempt [LinearOrder α] (env : Env α) (q : Quant) (l : LiveLayer E) (a : Attempt E n) : LiveLayer E :=
  (changePlan env q a.toChange l).run env l a.stop

/-- The wrapper has nothing to learn from a change: there is none on this rank, or its mask is that of the RAM tier,
or the set stays as it is. -/
def NothingToRefresh (env : Env α) (l : LiveLayer E) (selected : List (Fin E)) : Prop :=
  l.method.tpRank ≠ 0 ∨ env.tierEnabled ∨ selected.toFinset = l.method.gpuExpertsMask

/-- The attempt raised before it changed the bytes of any slot; or it made all its writes, or all but the last one,
which had nothing to do, and the store held every expert taken from it. -/
def Attempt.Atomic [LinearOrder α] (env : Env α) (q : Quant) (l : LiveLayer E) (a : Attempt E n) : Prop :=
  (∀ c ∈ (changePlan env q a.toChange l).copies.take a.stop, l.tensors c.1 = c.2) ∨
  (((changePlan env q a.toChange l).writes.length ≤ a.stop ∨
      (changePlan env q a.toChange l).writes.length = a.stop + 1 ∧ NothingToRefresh env l a.selected) ∧
    takenFromStore q l.method a.selected ⊆ a.store)

/-! ## Plans that publish last -/

/-- What a plan does to a layer with respect to a selection: its tables are written in `body` and then the wrapper is
refreshed; it copies into occupied slots, each once; before all of `body` is written, no seating the tables can be of
moves anyone out of a slot that was copied into; afterwards they are of the selection, and the slots are honest
exactly when the store holds what is taken from it; a new list of occupants is as long as the old one; and copies
that change no bytes are of a plan that changes nothing. -/
structure Publishes (env : Env α) (q : Quant) (store : Finset (Fin E)) (selected : List (Fin E)) (l : LiveLayer E)
    (p : Plan E) (body : List (TableWrite E)) : Prop where
  tables : p.tables = body ++ [.refreshWrapper]
  owner : ∀ w ∈ body, w ≠ .refreshWrapper
  nonempty : body ≠ []
  nodup : (p.copies.map Prod.fst).Nodup
  live : ∀ c ∈ p.copies, c.1.1 ∈ weightNames q ∧ ∃ e, l.method.gpuIndexToLogical[c.1.2]? = some e
  early : ∀ j < body.length, ∀ t, ((body.take j).foldl (TableWrite.apply env) l.method).Tabled t →
    ∀ c ∈ p.copies, t.occupants[c.1.2]? = l.method.gpuIndexToLogical[c.1.2]?
  tabled : ∃ t, (body.foldl (TableWrite.apply env) l.method).Tabled t
  mask : (body.foldl (TableWrite.apply env) l.method).gpuExpertsMask = selected.toFinset
  honest : (∀ name ∈ weightNames q, (LiveLayer.view
      ⟨body.foldl (TableWrite.apply env) l.method, updates l.tensors p.copies⟩ name).Honest) ↔
    takenFromStore q l.method selected ⊆ store
  length : ∀ occupants, .setOccupants occupants ∈ body → occupants.length = l.method.gpuIndexToLogical.length
  idle : (∀ c ∈ p.copies, l.tensors c.1 = c.2) → ∀ k, (p.run env l k).Described env q

section Publishes

variable {env : Env α} {q : Quant} {store : Finset (Fin E)} {selected : List (Fin E)} {l : LiveLayer E} {p : Plan E}
  {body : List (TableWrite E)} {k : ℕ}

/-- With the owner's side as it was, the wrapper is right exactly when it had nothing to learn. -/
theorem wired_iff {m m' : Method E} (hw : m.Wired env)
    (howner : (m'.tpRank, m'.wrapper, m'.ramExpertsMask) = (m.tpRank, m.wrapper, m.ramExpertsMask)) :
    m'.Wired env ↔ m.tpRank ≠ 0 ∨ env.tierEnabled ∨ m'.gpuExpertsMask = m.gpuExpertsMask := by
  simp only [Prod.mk.injEq] at howner
  obtain ⟨hrank, hwrapper, hram⟩ := howner
  constructor
  · intro hw'
    by_cases h0 : m.tpRank = 0
    · obtain ⟨w, hsome⟩ := Option.isSome_iff_exists.mp (hw.owner.mpr h0)
      have hskip : m'.ktCpuSkipMask env = m.ktCpuSkipMask env := by
        rw [← hw.mask w hsome, hw'.mask w (hwrapper.trans hsome)]
      unfold Method.ktCpuSkipMask at hskip
      by_cases htier : env.tierEnabled
      · exact Or.inr (Or.inl htier)
      · rw [if_neg htier, if_neg htier] at hskip
        exact Or.inr (Or.inr hskip)
    · exact Or.inl h0
  · intro h
    refine ⟨?_, fun w hsome => ?_⟩
    · rw [hwrapper, hrank]
      exact hw.owner
    · rw [hwrapper] at hsome
      rw [hw.mask w hsome]
      unfold Method.ktCpuSkipMask
      rw [hram]
      rcases h with hrank0 | htier | hmask
      · have hnone : m.wrapper.isSome := by rw [hsome]; rfl
        exact absurd (hw.owner.mp hnone) hrank0
      · rw [if_pos htier, if_pos htier]
      · rw [hmask]

namespace Publishes

theorem writes_length (h : Publishes env q store selected l p body) :
    p.writes.length = p.copies.length + (body.length + 1) := by
  unfold Plan.writes
  rw [h.tables]
  simp

/-- As long as the body is not through, the tables are those of some first writes of it. -/
theorem run_early (h : Publishes env q store selected l p body) (hk : k - p.copies.length ≤ body.length) :
    p.run env l k = ⟨(body.take (k - p.copies.length)).foldl (TableWrite.apply env) l.method,
      updates l.tensors (p.copies.take k)⟩ := by
  rw [Plan.run_eq, h.tables, List.take_append_of_le_length hk]

/-- Copies that change no bytes leave a layer described, whatever is written after them. -/
theorem described_of_idle (h : Publishes env q store selected l p body) (hl : l.Described env q)
    (hidle : ∀ c ∈ p.copies.take k, l.tensors c.1 = c.2) : (p.run env l k).Described env q := by
  by_cases hk : k ≤ p.copies.length
  · have hrun : p.run env l k = l := by
      rw [Plan.run_eq, Nat.sub_eq_zero_of_le hk, updates_idle hidle]
      rfl
    rw [hrun]
    exact hl
  · rw [List.take_of_length_le (by omega)] at hidle
    exact h.idle hidle k

/-- Before the body is through, only copies that change no bytes leave a layer described. -/
theorem idle_of_described (h : Publishes env q store selected l p body) (hl : l.Described env q)
    (hk : k - p.copies.length < body.length) (hrun : (p.run env l k).Described env q) :
    ∀ c ∈ p.copies.take k, l.tensors c.1 = c.2 := by
  intro c hc
  rw [h.run_early hk.le] at hrun
  obtain ⟨t, ht⟩ := hrun.tabled
  obtain ⟨hname, e, he⟩ := h.live c (List.mem_of_mem_take hc)
  have hseat : t.occupants[c.1.2]? = some e := by rw [h.early _ hk t ht c (List.mem_of_mem_take hc), he]
  -- the slot must hold the bytes of whom the tables still seat there, and holds what was copied
  have hafter : updates l.tensors (p.copies.take k) c.1 = some e :=
    hrun.honest c.1.1 hname c.1.2 e (by rw [← hseat, ← ht.occupants]; rfl)
  have hbefore : l.tensors c.1 = some e := hl.honest c.1.1 hname c.1.2 e he
  have hnodup : ((p.copies.take k).map Prod.fst).Nodup := h.nodup.sublist ((List.take_sublist k _).map Prod.fst)
  rw [hbefore, ← hafter]
  exact updates_of_mem hnodup hc

/-- The body leaves the owner's side as it was. -/
theorem body_owner (h : Publishes env q store selected l p body) : ((body.foldl (TableWrite.apply env) l.method).tpRank,
    (body.foldl (TableWrite.apply env) l.method).wrapper, (body.foldl (TableWrite.apply env) l.method).ramExpertsMask) =
      (l.method.tpRank, l.method.wrapper, l.method.ramExpertsMask) :=
  foldl_apply_kept (fun m : Method E => (m.tpRank, m.wrapper, m.ramExpertsMask)) fun w hw m =>
    TableWrite.apply_owner (h.owner w hw) m

/-- With the body through, a layer is described exactly when the store held what was taken from it and the wrapper is
up to date. -/
theorem described_late (h : Publishes env q store selected l p body) (hl : l.Described env q)
    (hk : p.copies.length + body.length ≤ k) :
    (p.run env l k).Described env q ↔
      (p.writes.length ≤ k ∨ p.writes.length = k + 1 ∧ NothingToRefresh env l selected) ∧
        takenFromStore q l.method selected ⊆ store := by
  have howner := h.body_owner
  have hcopies : p.copies.take k = p.copies := List.take_of_length_le (by omega)
  rw [h.writes_length]
  by_cases hlast : k = p.copies.length + body.length
  · have hbody : k - p.copies.length = body.length := by omega
    rw [h.run_early hbody.le, hbody, List.take_length, hcopies, ← h.honest]
    have hwired : (body.foldl (TableWrite.apply env) l.method).Wired env ↔ NothingToRefresh env l selected := by
      rw [wired_iff hl.wired howner, h.mask]
      rfl
    constructor
    · intro hrun
      exact ⟨Or.inr ⟨by omega, hwired.mp hrun.wired⟩, hrun.honest⟩
    · rintro ⟨hlength | ⟨-, hnothing⟩, hhonest⟩
      · omega
      · exact ⟨h.tabled, hwired.mpr hnothing, hhonest⟩
  · have htables : p.tables.take (k - p.copies.length) = body ++ [.refreshWrapper] := by
      rw [h.tables]
      exact List.take_of_length_le (by simp; omega)
    rw [Plan.run_eq, htables, hcopies, List.foldl_append, ← h.honest]
    constructor
    · intro hrun
      exact ⟨Or.inl (by omega), hrun.honest⟩
    · rintro ⟨-, hhonest⟩
      obtain ⟨t, ht⟩ := h.tabled
      refine ⟨⟨t, ht.mask, ht.index, ht.occupants, ht.maskCuda, ht.indexCuda⟩, Method.refreshWrapper_wired ?_, hhonest⟩
      simp only [Prod.mk.injEq] at howner
      rw [howner.1, howner.2.1]
      exact hl.wired.owner

/-- **Where a plan may be cut.** -/
theorem described_iff (h : Publishes env q store selected l p body) (hl : l.Described env q) :
    (p.run env l k).Described env q ↔
      (∀ c ∈ p.copies.take k, l.tensors c.1 = c.2) ∨
      ((p.writes.length ≤ k ∨ p.writes.length = k + 1 ∧ NothingToRefresh env l selected) ∧
        takenFromStore q l.method selected ⊆ store) := by
  have hbody : 0 < body.length := List.length_pos_of_ne_nil h.nonempty
  by_cases hk : p.copies.length + body.length ≤ k
  · rw [← h.described_late hl hk]
    exact ⟨Or.inr, fun hrun => hrun.elim (h.described_of_idle hl) id⟩
  · constructor
    · intro hrun
      exact Or.inl (h.idle_of_described hl (by omega) hrun)
    · rintro (hidle | ⟨hlength, -⟩)
      · exact h.described_of_idle hl hidle
      · have hwrites := h.writes_length
        omega

end Publishes

end Publishes

/-! ## Both paths publish last -/

section Paths

variable {env : Env α} {q : Quant} {store : Finset (Fin E)} {l : LiveLayer E} {t : Seating (Fin E)}

theorem view_tabled (ht : l.method.Tabled t) (name : TensorName) : (l.view name).Tabled t :=
  ⟨ht.mask, ht.index, ht.occupants, ht.maskCuda, ht.indexCuda⟩

/-- A scratch layer holds an expert's own bytes in its row, or none. -/
theorem eq_of_load {m : Method E} (ht : m.Tabled t) (hhon : m.Honest) {onlyExperts : Option (List (Fin E))}
    {e e' : Fin E} (h : load q store m onlyExperts e = some e') : e' = e := by
  have hcpu : cpuBytes store e = some e' → e' = e := fun h => by
    unfold cpuBytes at h
    split at h
    · exact (Option.some.inj h).symm
    · exact absurd h.symm (Option.some_ne_none e')
  have hoverlay : (if e ∈ m.gpuExpertsMask then m.residentRow e else cpuBytes store e) = some e' → e' = e := fun h => by
    by_cases he : e ∈ m.gpuExpertsMask
    · rw [if_pos he, residentRow_eq ht hhon he] at h
      exact (Option.some.inj h).symm
    · rw [if_neg he] at h
      exact hcpu h
  cases q with
  | int4 => exact hcpu h
  | w4afp8 =>
    cases onlyExperts with
    | none => exact hoverlay h
    | some add =>
      change (if e ∈ add then cpuBytes store e else none) = some e' at h
      split at h
      · exact hcpu h
      · exact absurd h.symm (Option.some_ne_none e')
  | mxfp4 => exact hoverlay h
  | fp8 => exact hoverlay h
  | fp8Channel => exact hoverlay h
  | bf16 => exact hoverlay h

/-- What holds of every tensor alike holds of all of them exactly when it holds at all. -/
theorem forall_weightNames_iff {P : TensorName → Prop} {Q : Prop} (h : ∀ name ∈ weightNames q, P name ↔ Q) :
    (∀ name ∈ weightNames q, P name) ↔ Q := by
  obtain ⟨name, hname⟩ := List.exists_mem_of_ne_nil _ (weightNames_ne_nil q)
  exact ⟨fun hP => (h name hname).mp (hP name hname), fun hQ name hname => (h name hname).mpr hQ⟩

/-- The table writes of a full restage before the refresh. -/
def fullBody (selected : List (Fin E)) : List (TableWrite E) :=
  [.setMask (updateGpuExpertMappings selected).1, .mirrorMask, .setIndex (updateGpuExpertMappings selected).2.1,
    .mirrorIndex, .setOccupants (updateGpuExpertMappings selected).2.2]

theorem fullPlan_eq {selected : List (Fin E)} (hq : q ≠ .mxfp4) :
    fullPlan q store selected l = ⟨fullCopies q store selected l, fullBody selected ++ [.refreshWrapper]⟩ := by
  unfold fullPlan
  rw [if_neg hq]
  rfl

/-- A full restage that changes no bytes is to the list of occupants as it is. -/
theorem occupants_of_fullCopies_idle {selected : List (Fin E)} (hl : l.Described env q) (ht : l.method.Tabled t)
    (hlen : selected.length = l.method.gpuIndexToLogical.length)
    (hidle : ∀ c ∈ fullCopies q store selected l, l.tensors c.1 = c.2) : selected = t.occupants := by
  obtain ⟨name, hname⟩ := List.exists_mem_of_ne_nil _ (weightNames_ne_nil q)
  rw [ht.occupants] at hlen
  refine List.ext_getElem hlen fun s hs hs' => ?_
  have hseat : l.method.gpuIndexToLogical[s]? = some t.occupants[s] := by
    rw [ht.occupants]
    exact List.getElem?_eq_getElem hs'
  have hcopy : l.tensors (name, s) = load q store (l.view name) none selected[s] :=
    hidle _ (mem_fullCopies.mpr ⟨hname, _, List.getElem?_eq_getElem hs, rfl⟩)
  have hown : l.tensors (name, s) = some t.occupants[s] := hl.honest name hname s _ hseat
  exact (eq_of_load (view_tabled ht name) (hl.honest name hname) (hcopy.symm.trans hown)).symm

/-- The table writes of a restage to the occupants as they are change nothing. -/
theorem foldl_fullTables_idle (hl : l.Described env q) (ht : l.method.Tabled t) {ws : List (TableWrite E)}
    (hws : ∀ w ∈ ws, w ∈ fullBody t.occupants ++ [.refreshWrapper]) :
    ws.foldl (TableWrite.apply env) l.method = l.method := by
  have hwrite : ∀ w ∈ fullBody t.occupants ++ [.refreshWrapper], w.apply env l.method = l.method := by
    have hindex : (updateGpuExpertMappings t.occupants).2.1 = l.method.logicalToGpuIndex := by
      rw [updateGpuExpertMappings_index t.nodup, ht.index]
    have hmask : (updateGpuExpertMappings t.occupants).1 = l.method.gpuExpertsMask := ht.mask.symm
    have hoccupants : (updateGpuExpertMappings t.occupants).2.2 = l.method.gpuIndexToLogical := ht.occupants.symm
    have hwrapper : updateKtWrapperMasks l.method.wrapper (l.method.ktCpuSkipMask env) = l.method.wrapper := by
      unfold updateKtWrapperMasks
      cases hw : l.method.wrapper with
      | none => rfl
      | some w => rw [← hl.wired.mask w hw]; rfl
    unfold fullBody
    rw [hindex, hmask, hoccupants]
    simp only [List.cons_append, List.nil_append, List.mem_cons, List.not_mem_nil, or_false]
    rintro w (rfl | rfl | rfl | rfl | rfl | rfl)
    · rfl
    · exact congrArg (fun mask => { l.method with gpuExpertsMaskCuda := mask }) ht.maskCuda.symm
    · rfl
    · exact congrArg (fun index => { l.method with logicalToGpuIndexCuda := index }) ht.indexCuda.symm
    · rfl
    · show l.method.refreshWrapper env = l.method
      unfold Method.refreshWrapper
      rw [hwrapper, ite_self]
  induction ws with
  | nil => rfl
  | cons w ws ih =>
    rw [List.foldl_cons, hwrite w (hws w List.mem_cons_self)]
    exact ih fun w' hw' => hws w' (List.mem_cons_of_mem w hw')

/-- Until its last write the body of a full restage leaves the list of occupants as it was. -/
theorem fullBody_early {selected : List (Fin E)} {j : ℕ} (hj : j < (fullBody selected).length) (m : Method E) :
    (((fullBody selected).take j).foldl (TableWrite.apply env) m).gpuIndexToLogical = m.gpuIndexToLogical := by
  have hsplit : fullBody selected = (fullBody selected).dropLast ++
      [.setOccupants (updateGpuExpertMappings selected).2.2] := rfl
  have hkept : ∀ w ∈ (fullBody selected).dropLast, ∀ m : Method E,
      (w.apply env m).gpuIndexToLogical = m.gpuIndexToLogical := by
    unfold fullBody
    simp only [List.dropLast, List.mem_cons, List.not_mem_nil, or_false]
    rintro w (rfl | rfl | rfl | rfl) m <;> rfl
  have hdrop : j ≤ (fullBody selected).dropLast.length := by
    rw [List.length_dropLast]
    omega
  rw [hsplit, List.take_append_of_le_length hdrop]
  exact foldl_apply_kept (fun m => m.gpuIndexToLogical) fun w hw => hkept w (List.mem_of_mem_take hw)

/-- **A full restage publishes last.** -/
theorem fullPlan_publishes [LinearOrder α] {selected : List (Fin E)} (hl : l.Described env q) (hq : q ≠ .mxfp4)
    (hselected : selected.Nodup) (hlen : selected.length = l.method.gpuIndexToLogical.length) :
    Publishes env q store selected l (fullPlan q store selected l) (fullBody selected) := by
  obtain ⟨t, ht⟩ := hl.tabled
  rw [fullPlan_eq hq]
  refine
    { tables := rfl
      owner := ?_
      nonempty := List.cons_ne_nil _ _
      nodup := fullCopies_nodup
      live := ?_
      early := ?_
      tabled := ⟨⟨selected, hselected⟩, rfl, updateGpuExpertMappings_index hselected, rfl, rfl, rfl⟩
      mask := rfl
      honest := forall_weightNames_iff fun name hname => ?_
      length := ?_
      idle := ?_ }
  · unfold fullBody
    simp
  · rintro ⟨⟨name, s⟩, b⟩ hc
    obtain ⟨hname, e, he, -⟩ := mem_fullCopies.mp hc
    obtain ⟨hs, -⟩ := List.getElem?_eq_some_iff.mp he
    exact ⟨hname, _, List.getElem?_eq_getElem (hlen ▸ hs)⟩
  · intro j hj t' ht' c _
    rw [← ht'.occupants, fullBody_early hj]
  · obtain ⟨slots, happly, hhonest⟩ := applyExpertSelection_spec env (load q store (l.view name) none) (l.view name) hq
      hselected
    rw [fullPlan_view hselected hq hname le_rfl] at happly
    rw [← Option.some.inj happly, load_none_iff hq (view_tabled ht name) (hl.honest name hname)] at hhonest
    rw [fullPlan_eq hq, Plan.run_eq, List.take_of_length_le (by simp [Plan.writes]),
      List.take_of_length_le (by simp [Plan.writes]), List.foldl_append] at hhonest
    exact hhonest
  · intro occupants hmem
    simp only [fullBody, List.mem_cons, List.not_mem_nil, or_false, reduceCtorEq, false_or,
      TableWrite.setOccupants.injEq] at hmem
    rw [hmem]
    exact hlen
  · intro hidle k
    obtain rfl := occupants_of_fullCopies_idle hl ht hlen hidle
    rw [Plan.run_eq, updates_idle fun c hc => hidle c (List.mem_of_mem_take hc),
      foldl_fullTables_idle hl ht fun w hw => List.mem_of_mem_take hw]
    exact hl

/-- The table writes of an in-place swap before the refresh. -/
def swapBody (oldIndex : Fin E → ℤ) (ps : List (Fin E × Fin E)) : List (TableWrite E) :=
  ps.flatMap (flipWrites oldIndex) ++ [.mirrorMask, .mirrorIndex]

/-- Flipping pairs leaves the wrapper alone. -/
theorem flipWrites_ne_refreshWrapper {oldIndex : Fin E → ℤ} {ps : List (Fin E × Fin E)} {w : TableWrite E}
    (hw : w ∈ ps.flatMap (flipWrites oldIndex)) : w ≠ .refreshWrapper := by
  obtain ⟨p, -, hw⟩ := List.mem_flatMap.mp hw
  simp only [flipWrites, List.mem_cons, List.not_mem_nil, or_false] at hw
  rcases hw with rfl | rfl | rfl | rfl | rfl <;> simp

theorem swapBody_ne_refreshWrapper {oldIndex : Fin E → ℤ} {ps : List (Fin E × Fin E)} {w : TableWrite E}
    (hw : w ∈ swapBody oldIndex ps) : w ≠ .refreshWrapper := by
  rcases List.mem_append.mp hw with hw | hw
  · exact flipWrites_ne_refreshWrapper hw
  · simp only [List.mem_cons, List.not_mem_nil, or_false] at hw
    rcases hw with rfl | rfl <;> simp

/-- A swap replaces occupants one by one, never the whole table. -/
theorem setOccupants_notMem_swapBody {oldIndex : Fin E → ℤ} {ps : List (Fin E × Fin E)} {occupants : List (Fin E)} :
    .setOccupants occupants ∉ swapBody oldIndex ps := by
  intro hmem
  rcases List.mem_append.mp hmem with hmem | hmem
  · obtain ⟨p, -, hmem⟩ := List.mem_flatMap.mp hmem
    simp [flipWrites] at hmem
  · simp at hmem

/-- Flipping pairs leaves the index mirror alone. -/
theorem flipWrites_kept {oldIndex : Fin E → ℤ} {ps : List (Fin E × Fin E)} {w : TableWrite E}
    (hw : w ∈ ps.flatMap (flipWrites oldIndex)) (m : Method E) :
    (w.apply env m).logicalToGpuIndexCuda = m.logicalToGpuIndexCuda := by
  obtain ⟨p, -, hw⟩ := List.mem_flatMap.mp hw
  simp only [flipWrites, List.mem_cons, List.not_mem_nil, or_false] at hw
  rcases hw with rfl | rfl | rfl | rfl | rfl <;> rfl

/-- Until its last write the body of a swap leaves the index mirror as it was. -/
theorem swapBody_early {oldIndex : Fin E → ℤ} {ps : List (Fin E × Fin E)} {j : ℕ}
    (hj : j < (swapBody oldIndex ps).length) (m : Method E) :
    (((swapBody oldIndex ps).take j).foldl (TableWrite.apply env) m).logicalToGpuIndexCuda =
      m.logicalToGpuIndexCuda := by
  have hsplit : swapBody oldIndex ps = (ps.flatMap (flipWrites oldIndex) ++ [.mirrorMask]) ++ [.mirrorIndex] := by
    unfold swapBody
    rw [List.append_assoc]
    rfl
  have hkept : ∀ w ∈ ps.flatMap (flipWrites oldIndex) ++ [.mirrorMask],
      ∀ m : Method E, (w.apply env m).logicalToGpuIndexCuda = m.logicalToGpuIndexCuda := by
    intro w hw
    rcases List.mem_append.mp hw with hw | hw
    · exact flipWrites_kept hw
    · rw [List.mem_singleton.mp hw]
      exact fun _ => rfl
  rw [hsplit, List.length_append, List.length_singleton] at hj
  rw [hsplit, List.take_append_of_le_length (by omega)]
  exact foldl_apply_kept (fun m => m.logicalToGpuIndexCuda) fun w hw => hkept w (List.mem_of_mem_take hw)

/-- The body of a swap reseats the arrivals and sets the mirrors. -/
theorem swapBody_run (env : Env α) {ps : List (Fin E × Fin E)} (ht : l.method.Tabled t) (hps : Swaps t.residents ps) :
    ∃ t' : Seating (Fin E), t'.residents = exchange t.residents ps ∧
      (swapBody l.method.logicalToGpuIndex ps).foldl (TableWrite.apply env) l.method =
        { l.method with
          gpuExpertsMask := t'.residents
          gpuExpertsMaskCuda := t'.residents
          logicalToGpuIndex := t'.index
          logicalToGpuIndexCuda := t'.index
          gpuIndexToLogical := t'.occupants } := by
  obtain ⟨t', hflips, hres, -⟩ := flips_seating hps (fun p _ => congrFun ht.index p.2)
  refine ⟨t', hres, ?_⟩
  unfold swapBody
  rw [List.foldl_append, foldl_flips, ht.mask, ht.occupants]
  rw [← ht.index] at hflips
  rw [hflips]
  rfl

/-- The plan of a swap whose departures all have slots. -/
theorem inPlacePlan_eq {ctx : TensorName → Fin E → Option (Fin E)} {add drop : List (Fin E)}
    (hseated : ∀ p ∈ add.zip drop, 0 ≤ l.method.logicalToGpuIndex p.2) : inPlacePlan q ctx add drop l = (true,
      ⟨pairCopies l.method ctx (weightNames q) (add.zip drop),
        swapBody l.method.logicalToGpuIndex (add.zip drop) ++ [.refreshWrapper]⟩) := by
  unfold inPlacePlan swapBody
  rw [arrivalCopies_eq hseated, List.append_assoc]
  rfl

/-- The copies of a swap change bytes: an arrival is not the departure whose slot it takes. -/
theorem pairCopies_not_idle {ctx : TensorName → Fin E → Option (Fin E)} {ps : List (Fin E × Fin E)}
    (hl : l.Described env q) (hps : Swaps t.residents ps) (hne : ps ≠ [])
    (hlive : ∀ p ∈ ps, l.method.gpuIndexToLogical[(l.method.logicalToGpuIndex p.2).toNat]? = some p.2)
    (hctx : ∀ name ∈ weightNames q, ∀ e e', ctx name e = some e' → e' = e) :
    ¬ ∀ c ∈ pairCopies l.method ctx (weightNames q) ps, l.tensors c.1 = c.2 := by
  intro hidle
  obtain ⟨p, hp⟩ := List.exists_mem_of_ne_nil _ hne
  obtain ⟨name, hname⟩ := List.exists_mem_of_ne_nil _ (weightNames_ne_nil q)
  have hcopy := hidle _ (mem_pairCopies.mpr ⟨hname, p, hp, rfl, rfl⟩)
  have hown := hl.honest name hname _ _ (hlive p hp)
  have hsame : p.2 = p.1 := hctx name hname _ _ (hcopy.symm.trans hown)
  exact hps.fst_notMem p hp (hsame ▸ hps.snd_mem p hp)

/-- While the index is that of the old tables, it names the occupants of the slots the pairs are copied into. -/
theorem pairCopies_early {ctx : TensorName → Fin E → Option (Fin E)} {ps : List (Fin E × Fin E)} {t' : Seating (Fin E)}
    (hindex : t'.index = l.method.logicalToGpuIndex)
    (hseated : ∀ p ∈ ps, 0 ≤ l.method.logicalToGpuIndex p.2)
    (hlive : ∀ p ∈ ps, l.method.gpuIndexToLogical[(l.method.logicalToGpuIndex p.2).toNat]? = some p.2)
    {c : (TensorName × ℕ) × Option (Fin E)} (hc : c ∈ pairCopies l.method ctx (weightNames q) ps) :
    t'.occupants[c.1.2]? = l.method.gpuIndexToLogical[c.1.2]? := by
  obtain ⟨⟨name, s⟩, b⟩ := c
  obtain ⟨-, p, hp, rfl, -⟩ := mem_pairCopies.mp hc
  have hin : p.2 ∈ t'.occupants := by
    rw [← Seating.index_nonneg_iff, hindex]
    exact hseated p hp
  rw [hlive p hp, ← hindex]
  exact Seating.getElem?_index hin

/-- **A swap in place publishes last.** -/
theorem inPlacePlan_publishes {selected : List (Fin E)} {ctx : TensorName → Fin E → Option (Fin E)}
    {add drop : List (Fin E)} (hl : l.Described env q) (ht : l.method.Tabled t) (hadd : add.Nodup)
    (hdrop : drop.Nodup) (hlen : add.length = drop.length) (hne : add ≠ []) (hnew : ∀ e ∈ add, e ∉ t.residents)
    (hold : ∀ e ∈ drop, e ∈ t.residents)
    (hselected : (t.residents \ drop.toFinset) ∪ add.toFinset = selected.toFinset)
    (hctx : ∀ name ∈ weightNames q, ∀ e e', ctx name e = some e' → e' = e)
    (hstore : ∀ name ∈ weightNames q,
      (∀ e ∈ add, ctx name e = some e) ↔ takenFromStore q l.method selected ⊆ store) :
    ∃ p, inPlacePlan q ctx add drop l = (true, p) ∧
      Publishes env q store selected l p (swapBody l.method.logicalToGpuIndex (add.zip drop)) := by
  have hps : Swaps t.residents (add.zip drop) := Swaps.zip hadd hdrop hnew hold
  -- the slot a pair is copied into is that of its departure
  obtain ⟨hseated, hslots, hlive⟩ := ht.departures_seated hps
  have hplan : inPlacePlan q ctx add drop l = (true, _) := inPlacePlan_eq hseated
  obtain ⟨t', hres, hbody⟩ := swapBody_run env ht hps
  refine ⟨_, hplan, ?_⟩
  refine
    { tables := rfl
      owner := fun w hw => swapBody_ne_refreshWrapper hw
      nonempty := by simp [swapBody]
      nodup := pairCopies_nodup (weightNames_nodup q) hslots
      live := ?_
      early := ?_
      tabled := ⟨t', by rw [hbody]; exact ⟨rfl, rfl, rfl, rfl, rfl⟩⟩
      mask := ?_
      honest := forall_weightNames_iff fun name hname => ?_
      length := fun occupants hmem => absurd hmem setOccupants_notMem_swapBody
      idle := ?_ }
  · rintro ⟨⟨name, s⟩, b⟩ hc
    obtain ⟨hname, p, hp, rfl, -⟩ := mem_pairCopies.mp hc
    exact ⟨hname, p.2, hlive p hp⟩
  · intro j hj t'' ht'' c hc
    refine pairCopies_early ?_ hseated hlive hc
    rw [← ht''.index, ← ht''.indexCuda, swapBody_early hj, ht.indexCuda]
  · rw [hbody, ← hselected, ← outs_zip hlen, ← ins_zip hlen, ← hps.exchange_eq]
    exact hres
  · obtain ⟨slots, t₁, hswap, -, hhonest⟩ := swapInPlace_spec env (ctx name) (view_tabled ht name) hadd hdrop hlen
      hnew hold
    have hhonest := hhonest (hl.honest name hname)
    rw [inPlacePlan_view hslots hseated hname le_rfl] at hswap
    rw [← (Prod.mk.inj hswap).2, hstore name hname, hplan, Plan.run_eq,
      List.take_of_length_le (by simp [Plan.writes]), List.take_of_length_le (by simp [Plan.writes]),
      List.foldl_append] at hhonest
    exact hhonest
  · refine fun hidle => absurd hidle (pairCopies_not_idle hl hps (fun hnil => ?_) hlive hctx)
    rcases List.zip_eq_nil_iff.mp hnil with h | h
    · exact hne h
    · exact hne (List.length_eq_zero_iff.mp (hlen.trans (List.length_eq_zero_iff.mpr h)))

/-- An attempt in place plans nothing, accepting or declining, or a swap that publishes last. -/
theorem incrementalPlan_cases (hl : l.Described env q) (ctxBuilt : Bool) (selected : List (Fin E)) :
    (∃ accepts, incrementalPlan env q ctxBuilt store selected l = (accepts, ⟨[], []⟩)) ∨
    ∃ p body, incrementalPlan env q ctxBuilt store selected l = (true, p) ∧
      Publishes env q store selected l p body := by
  obtain ⟨t, ht⟩ := hl.tabled
  unfold incrementalPlan
  by_cases hctx : ctxBuilt ∧ q ≠ .w4afp8
  · exact Or.inl ⟨false, if_pos hctx⟩
  rw [if_neg hctx]
  dsimp only
  by_cases hmoved : whereTrue (selected.toFinset \ l.method.gpuExpertsMask) = [] ∧
      whereTrue (l.method.gpuExpertsMask \ selected.toFinset) = []
  · exact Or.inl ⟨true, if_pos hmoved⟩
  rw [if_neg hmoved]
  by_cases hlen : (whereTrue (selected.toFinset \ l.method.gpuExpertsMask)).length ≠
      (whereTrue (l.method.gpuExpertsMask \ selected.toFinset)).length
  · exact Or.inl ⟨false, if_pos hlen⟩
  rw [if_neg hlen]
  by_cases hmax : env.ktTierIncrementalMax < (whereTrue (selected.toFinset \ l.method.gpuExpertsMask)).length
  · exact Or.inl ⟨false, if_pos hmax⟩
  rw [if_neg hmax]
  by_cases hq : q ≠ .w4afp8
  · exact Or.inl ⟨false, if_pos hq⟩
  rw [if_neg hq]
  push Not at hlen hq
  subst hq
  have hadd : whereTrue (selected.toFinset \ l.method.gpuExpertsMask) ≠ [] := fun hnil => by
    refine hmoved ⟨hnil, List.length_eq_zero_iff.mp ?_⟩
    rw [← hlen, hnil]
    rfl
  have hown : ∀ name ∈ weightNames .w4afp8, ∀ e e', load .w4afp8 store (l.view name)
      (some (whereTrue (selected.toFinset \ l.method.gpuExpertsMask))) e = some e' → e' = e := fun name hname e e' h =>
    eq_of_load (view_tabled ht name) (hl.honest name hname) h
  have hstore : ∀ name ∈ weightNames .w4afp8, (∀ e ∈ whereTrue (selected.toFinset \ l.method.gpuExpertsMask),
      load .w4afp8 store (l.view name) (some (whereTrue (selected.toFinset \ l.method.gpuExpertsMask))) e = some e) ↔
        takenFromStore .w4afp8 l.method selected ⊆ store := fun name _ => by
    rw [load_some_iff]
    exact ⟨fun h e he => h e (mem_whereTrue.mpr he), fun h e he => h (mem_whereTrue.mp he)⟩
  obtain ⟨p, hplan, hpublishes⟩ := inPlacePlan_publishes hl ht (whereTrue_nodup _) (whereTrue_nodup _) hlen hadd
    ht.arrivals_notMem ht.departures_mem ht.moved_eq_selected hown hstore
  exact Or.inr ⟨p, _, hplan, hpublishes⟩

variable [LinearOrder α]

/-- **What a change plans to do to a described layer**: nothing, or a plan that publishes last. -/
theorem changePlan_cases (hl : l.Described env q) (hlen : l.method.gpuIndexToLogical.length = n) (c : Change E n) :
    changePlan env q c l = ⟨[], []⟩ ∨ ∃ body, Publishes env q c.store c.selected l (changePlan env q c l) body := by
  have hfull : fullPlan q c.store c.selected l = ⟨[], []⟩ ∨
      ∃ body, Publishes env q c.store c.selected l (fullPlan q c.store c.selected l) body := by
    by_cases hq : q = .mxfp4
    · exact Or.inl (if_pos hq)
    · exact Or.inr ⟨_, fullPlan_publishes hl hq c.nodup (c.size.trans hlen.symm)⟩
  unfold changePlan
  cases c.incremental with
  | false => exact hfull
  | true =>
    rw [if_pos rfl]
    rcases incrementalPlan_cases hl c.ctxBuilt c.selected with ⟨accepts, htried⟩ | ⟨p, body, htried, h⟩
    · rw [htried]
      cases accepts with
      | true => exact Or.inl rfl
      | false => exact hfull
    · rw [htried]
      exact Or.inr ⟨body, h⟩

/-- **What one attempt leaves of a described layer.** -/
theorem attempt_described_iff (hl : l.Described env q) (hlen : l.method.gpuIndexToLogical.length = n)
    (a : Attempt E n) : (l.attempt env q a).Described env q ↔ a.Atomic env q l := by
  unfold LiveLayer.attempt Attempt.Atomic
  rcases changePlan_cases hl hlen a.toChange with hplan | ⟨body, h⟩
  · rw [hplan]
    refine ⟨fun _ => Or.inl fun c hc => ?_, fun _ => ?_⟩
    · exact absurd (List.mem_of_mem_take hc) List.not_mem_nil
    · rw [Plan.run_eq]
      simpa [updates_idle] using hl
  · exact h.described_iff hl

/-- An attempt leaves as many occupants as there were. -/
theorem attempt_occupants_length (hl : l.Described env q) (hlen : l.method.gpuIndexToLogical.length = n)
    (a : Attempt E n) : (l.attempt env q a).method.gpuIndexToLogical.length = n := by
  unfold LiveLayer.attempt
  rw [Plan.run_eq]
  rcases changePlan_cases hl hlen a.toChange with hplan | ⟨body, h⟩
  · rw [hplan, List.take_nil]
    exact hlen
  · refine foldl_apply_length (fun occupants hmem => ?_) hlen
    have hmem := List.mem_of_mem_take hmem
    rw [h.tables] at hmem
    rcases List.mem_append.mp hmem with hmem | hmem
    · exact (h.length occupants hmem).trans hlen
    · simp at hmem

end Paths

/-- **Atomicity of the changes of a layer's GPU set.** From a described layer of `n` occupants, through any attempts
to change its set to other `n` experts, in place or by full restage, each raising after any number of its writes or
not at all: the layer is described in every state exactly when every attempt is atomic. -/
theorem attempts_described_iff [LinearOrder α] (env : Env α) (q : Quant) {l : LiveLayer E} (hl : l.Described env q)
    (hlen : l.method.gpuIndexToLogical.length = n) (attempts : List (Attempt E n)) :
    StatesHold (LiveLayer.attempt env q) (LiveLayer.Described env q) l attempts ↔
      StepsMeet (LiveLayer.attempt env q) (fun l a => a.Atomic env q l) l attempts :=
  statesHold_iff_stepsMeet (I := fun l : LiveLayer E => l.method.gpuIndexToLogical.length = n)
    (fun _ a hI hP _ => attempt_occupants_length hP hI a) (fun _ a hI hP => attempt_described_iff hP hI a) hlen hl
    attempts

section Boot

variable (env : Env α) (adaptive : Bool) (ranking : Option (List (Fin E))) (tpRank : ℕ) (gpuMask : Finset (Fin E))

/-- A layer boots described. -/
theorem boot_described (q : Quant) :
    (LiveLayer.of (Method.boot env adaptive ranking tpRank gpuMask)).Described env q where
  tabled := ⟨_, Method.boot_tabled env adaptive ranking tpRank gpuMask⟩
  wired := Method.boot_wired env adaptive ranking tpRank gpuMask
  honest _ _ := Method.boot_honest env adaptive ranking tpRank gpuMask

end Boot

/-- The change of the set from 0, 1 to 0, 2, cut short after some writes. -/
def promoteTwoUntil (incremental : Bool) (stop : ℕ) : Attempt 4 2 :=
  { promoteTwo incremental with stop := stop }

/-- Uncut, the change leaves the layer described. -/
theorem attempts_described_promoteTwo :
    StatesHold (LiveLayer.attempt oneInRam .w4afp8) (LiveLayer.Described oneInRam .w4afp8)
      (LiveLayer.of (Method.boot oneInRam true none 0 {0, 1})) [promoteTwoUntil true 100] :=
  (attempts_described_iff oneInRam .w4afp8 (boot_described oneInRam true none 0 {0, 1} .w4afp8) (by decide)
    [promoteTwoUntil true 100]).mpr ⟨Or.inr ⟨Or.inl (by decide), by decide⟩, trivial⟩

/-- Cut after the second copy, a full restage leaves expert 1 on the GPU, served from a slot with the bytes of 2. -/
theorem restage_cut_serves_other_bytes :
    ¬ StatesHold (LiveLayer.attempt oneInRam .w4afp8) (LiveLayer.Described oneInRam .w4afp8)
        (LiveLayer.of (Method.boot oneInRam true none 0 {0, 1})) [promoteTwoUntil false 2] ∧
      (1 : Fin 4) ∈ ((LiveLayer.of (Method.boot oneInRam true none 0 {0, 1})).attempt oneInRam .w4afp8
        (promoteTwoUntil false 2)).method.gpuExpertsMaskCuda ∧
      (((LiveLayer.of (Method.boot oneInRam true none 0 {0, 1})).attempt oneInRam .w4afp8
        (promoteTwoUntil false 2)).view .w13Weight).residentRow 1 = some 2 := by
  have hmask : (1 : Fin 4) ∈ ((LiveLayer.of (Method.boot oneInRam true none 0 {0, 1})).attempt oneInRam .w4afp8
      (promoteTwoUntil false 2)).method.gpuExpertsMaskCuda := by decide
  have hrow : (((LiveLayer.of (Method.boot oneInRam true none 0 {0, 1})).attempt oneInRam .w4afp8
      (promoteTwoUntil false 2)).view .w13Weight).residentRow 1 = some 2 := by decide
  refine ⟨fun h => ?_, hmask, hrow⟩
  have hafter : ((LiveLayer.of (Method.boot oneInRam true none 0 {0, 1})).attempt oneInRam .w4afp8
      (promoteTwoUntil false 2)).Described oneInRam .w4afp8 := h.last
  obtain ⟨t, ht⟩ := hafter.tabled
  have hown := residentRow_eq (view_tabled ht .w13Weight) (hafter.honest .w13Weight List.mem_cons_self)
    (ht.maskCuda ▸ hmask)
  rw [hrow] at hown
  exact absurd hown (by decide)

end ExpertServe
