import ExpertServe.Policy.TierLaws
import ExpertServe.Residency.SlotTable
import ExpertServe.Residency.Store

/-!
# The dynamic tier tick

`_kt_tier_update_layer` on one rank: rank 0 decides (`tierPlan`), every rank applies the broadcast sets
(`tierApply`), the GPU tier first, then the RAM tier with its evictions and promotions.

* `ramPhase_spec`: what the RAM phase leaves of a layer, on the rank that owns the store and on the others;
* `tierApply_spec`: what one application leaves, both phases together.
-/

namespace ExpertServe

open Lib

variable {E : ℕ} {α : Type*} [Field α] [LinearOrder α]

/-- What one tick meets: the demand counts of rank 0, whether movement is frozen (or the selection raised),
whether the shared context exists already, and how each call into the CPU store would end. -/
structure TierEvent (E : ℕ) (α : Type*) where
  counts : Fin E → α
  frozen : Bool
  ctxBuilt : Bool
  evict : Fin E → Outcome
  promote : Fin E → Outcome

/-- The decision of rank 0: the masks it wants, the current ones when there is too little demand or movement
is frozen. -/
def tierPlan (env : Env α) (srt : Argsort (Fin E) α) (ev : TierEvent E α) (m : Method E) :
    Finset (Fin E) × Finset (Fin E) :=
  if ev.frozen ∨ ∑ e, ev.counts e < env.ktAdaptiveMinEvents then (m.gpuExpertsMask, m.ramExpertsMask)
  else ktTierSelect env srt ev.counts m.gpuExpertsMask m.ramExpertsMask m.numGpuExperts m.ramExpertsMask.card

/-- One promotion: an expert whose promotion raises is masked out again. -/
def promoteStep (env : Env α) (promote : Fin E → Outcome) (m : Method E) (e : Fin E) : Method E :=
  let m := m.stageExpert e (promote e)
  if promote e = .ok then m
  else
    Method.refreshWrapper env
      { m with ramExpertsMask := m.ramExpertsMask.erase e, ramExpertsMaskCuda := m.ramExpertsMaskCuda.erase e }

/-- One eviction. A failure is logged. -/
def evictStep (evict : Fin E → Outcome) (m : Method E) (e : Fin E) : Method E :=
  m.evictExpert e (evict e)

/-- The RAM phase: the new mask everywhere, then, where the store is, the evictions and the promotions. -/
def ramPhase (env : Env α) (ev : TierEvent E α) (newRam : Finset (Fin E)) (m : Method E) : Method E :=
  let oldRam := m.ramExpertsMask
  let m := m.setRam newRam
  if m.tpRank = 0 ∧ m.wrapper.isSome then
    let m := m.refreshWrapper env
    let m := (whereTrue (oldRam \ newRam)).foldl (evictStep ev.evict) m
    (whereTrue (newRam \ oldRam)).foldl (promoteStep env ev.promote) m
  else m

/-- What a rank does with the broadcast sets: the GPU tier first, since its source must still be staged,
then the RAM tier. A copy that raises ends the tick. -/
def tierApply (env : Env α) (q : Quant) (ev : TierEvent E α) (store : Finset (Fin E))
    (selGpu selRam : List (Fin E)) (m : Method E) : Method E :=
  let swapped := changeGpuSet env q ev.ctxBuilt store (env.ktTierIncremental ≠ 0) selGpu m
  if ¬ swapped.1 then swapped.2
  else if m.ramExpertsMask ≠ selRam.toFinset then ramPhase env ev selRam.toFinset swapped.2
  else if ¬ (whereTrue m.gpuExpertsMask).Perm selGpu then swapped.2.refreshWrapper env
  else swapped.2

/-- `_kt_tier_update_layer` on the rank that owns the store. -/
def ktTierUpdateLayer (env : Env α) (q : Quant) (srt : Argsort (Fin E) α) (m : Method E) (ev : TierEvent E α) :
    Method E :=
  tierApply env q ev m.store (whereTrue (tierPlan env srt ev m).1) (whereTrue (tierPlan env srt ev m).2) m

/-! ## The decision -/

section Plan

variable {env : Env α} {srt : Argsort (Fin E) α} {ev : TierEvent E α} {m : Method E}

theorem card_tierPlan_fst (hdisj : Disjoint m.gpuExpertsMask m.ramExpertsMask) :
    (tierPlan env srt ev m).1.card = m.gpuExpertsMask.card := by
  unfold tierPlan
  split
  · rfl
  · exact card_ktTierSelect_fst hdisj

theorem card_tierPlan_snd (hdisj : Disjoint m.gpuExpertsMask m.ramExpertsMask) :
    (tierPlan env srt ev m).2.card = m.ramExpertsMask.card := by
  unfold tierPlan
  split
  · rfl
  · exact card_ktTierSelect_snd hdisj rfl

/-- The decision asks for as many RAM experts as there are, whether or not the tiers overlap. -/
theorem card_tierPlan_snd_of_le (hfit : m.gpuExpertsMask.card + m.ramExpertsMask.card ≤ E) :
    (tierPlan env srt ev m).2.card = m.ramExpertsMask.card := by
  unfold tierPlan
  split
  · rfl
  · exact card_ktTierSelect_snd_of_le hfit

theorem card_tierPlan_fst_le : (tierPlan env srt ev m).1.card ≤ m.gpuExpertsMask.card := by
  unfold tierPlan
  split
  · exact le_rfl
  · rw [ktTierSelect_fst]
    exact card_swapIn_le

theorem tierPlan_disjoint (hdisj : Disjoint m.gpuExpertsMask m.ramExpertsMask) :
    Disjoint (tierPlan env srt ev m).1 (tierPlan env srt ev m).2 := by
  unfold tierPlan
  split
  · exact hdisj
  · exact ktTierSelect_disjoint hdisj rfl

/-- Whoever the decision brings to the GPU is in host RAM. -/
theorem tierPlan_ladder (hdisj : Disjoint m.gpuExpertsMask m.ramExpertsMask) :
    (tierPlan env srt ev m).1 \ m.gpuExpertsMask ⊆ m.ramExpertsMask := by
  unfold tierPlan
  split
  · simp
  · exact ktTierSelect_ladder hdisj

end Plan

/-! ## The RAM phase -/

section RamPhase

omit [LinearOrder α]

variable (env : Env α) {m : Method E} {w : Wrapper E} (evict promote : Fin E → Outcome) (l : List (Fin E))

/-- Evictions change the wrapper only, and only the bytes of the experts they name. -/
theorem evicts_eq (hw : m.wrapper = some w) :
    ∃ w', l.foldl (evictStep evict) m = { m with wrapper := some w' } ∧
      w'.gpuExpertsMask = w.gpuExpertsMask ∧ ∀ i ∉ l, i ∈ w'.staged ↔ i ∈ w.staged := by
  induction l generalizing m w with
  | nil => exact ⟨w, by rw [List.foldl_nil, ← hw], rfl, fun _ _ => Iff.rfl⟩
  | cons e l ih =>
    have hstep : (evictStep evict m e).wrapper = some (w.evictExpert e (evict e)) := by
      simp [evictStep, Method.evictExpert, hw]
    obtain ⟨w', heq, hmask, hstaged⟩ := ih hstep
    refine ⟨w', heq, by rw [hmask, Wrapper.evictExpert_mask], fun i hi => ?_⟩
    rw [List.mem_cons, not_or] at hi
    rw [hstaged i hi.2, Wrapper.mem_evictExpert_of_ne hi.1]

/-- The layer with the failed promotions of a list masked out. -/
def Method.withoutFailed (m : Method E) (promote : Fin E → Outcome) (l : List (Fin E)) (w : Wrapper E) :
    Method E :=
  { m with
    ramExpertsMask := m.ramExpertsMask.filter fun i => i ∈ l → promote i = .ok
    ramExpertsMaskCuda := m.ramExpertsMaskCuda.filter fun i => i ∈ l → promote i = .ok
    wrapper := some w }

theorem filter_singleton_ok {s : Finset (Fin E)} {e : Fin E} :
    s.filter (fun i => i ∈ [e] → promote i = .ok) = if promote e = .ok then s else s.erase e := by
  ext i
  by_cases h : promote e = .ok
  · rw [if_pos h]
    simp only [Finset.mem_filter, List.mem_singleton, and_iff_left_iff_imp]
    rintro - rfl
    exact h
  · rw [if_neg h]
    simp only [Finset.mem_filter, List.mem_singleton, Finset.mem_erase]
    refine ⟨fun hi => ⟨fun he => h (he ▸ hi.2 he), hi.1⟩, fun hi => ⟨hi.2, fun he => absurd he hi.1⟩⟩

/-- One promotion on the rank that owns the store. -/
theorem promoteStep_eq {e : Fin E} (h0 : m.tpRank = 0) (hw : m.wrapper = some w)
    (hmask : w.gpuExpertsMask = m.ktCpuSkipMask env) :
    ∃ w', promoteStep env promote m e = m.withoutFailed promote [e] w' ∧
      w'.gpuExpertsMask = (m.withoutFailed promote [e] w').ktCpuSkipMask env ∧
      (∀ i, i ≠ e → (i ∈ w'.staged ↔ i ∈ w.staged)) ∧ (promote e = .ok → e ∈ w'.staged) := by
  unfold promoteStep Method.withoutFailed
  simp only [filter_singleton_ok]
  by_cases hok : promote e = .ok
  · refine ⟨w.stageExpert e .ok, ?_, ?_, fun i hi => Wrapper.mem_stageExpert_of_ne hi,
      fun _ => Wrapper.mem_stageExpert_ok⟩
    · simp [Method.stageExpert, hok, hw]
    · simpa [hok, Method.ktCpuSkipMask] using hmask
  · refine ⟨⟨Method.ktCpuSkipMask env { m with ramExpertsMask := m.ramExpertsMask.erase e },
        (w.stageExpert e (promote e)).staged⟩, ?_, ?_,
      fun i hi => Wrapper.mem_stageExpert_of_ne hi, fun h => absurd h hok⟩
    · simp [Method.stageExpert, hok, hw, h0, Method.refreshWrapper, updateKtWrapperMasks, Method.ktCpuSkipMask]
    · simp [hok, Method.ktCpuSkipMask]

/-- **The promotions of a list.** Exactly the experts whose promotion raises are masked out again, the
pinned mask stays in step, and every other expert of the list ends up staged. -/
theorem promotes_eq (h0 : m.tpRank = 0) (hw : m.wrapper = some w)
    (hmask : w.gpuExpertsMask = m.ktCpuSkipMask env) :
    ∃ w', l.foldl (promoteStep env promote) m = m.withoutFailed promote l w' ∧
      w'.gpuExpertsMask = (m.withoutFailed promote l w').ktCpuSkipMask env ∧
      (∀ i ∉ l, i ∈ w'.staged ↔ i ∈ w.staged) ∧ ∀ i ∈ l, promote i = .ok → i ∈ w'.staged := by
  induction l generalizing m w with
  | nil =>
    refine ⟨w, ?_, ?_, fun _ _ => Iff.rfl, fun i hi => absurd hi List.not_mem_nil⟩
    · simp [Method.withoutFailed, ← hw]
    · simpa [Method.withoutFailed, Method.ktCpuSkipMask] using hmask
  | cons e l ih =>
    obtain ⟨w₁, hstep, hmask₁, hother₁, hself₁⟩ := promoteStep_eq env promote (e := e) h0 hw hmask
    obtain ⟨w', heq, hmask', hother, hself⟩ := ih (m := m.withoutFailed promote [e] w₁) h0 rfl hmask₁
    have hcons : (m.withoutFailed promote [e] w₁).withoutFailed promote l w' =
        m.withoutFailed promote (e :: l) w' := by
      simp only [Method.withoutFailed, Finset.filter_filter, List.mem_cons, or_imp, List.not_mem_nil,
        false_imp_iff, and_true]
    rw [hcons] at heq hmask'
    refine ⟨w', by rw [List.foldl_cons, hstep, heq], hmask', fun i hi => ?_, fun i hi hok => ?_⟩
    · rw [List.mem_cons, not_or] at hi
      rw [hother i hi.2, hother₁ i hi.1]
    · by_cases hil : i ∈ l
      · exact hself i hil hok
      · obtain rfl : i = e := (List.mem_cons.mp hi).resolve_right hil
        exact (hother i hil).mpr (hself₁ hok)

/-- What the RAM phase advertises: the new mask without the newcomers whose promotion raised. -/
def advertised (oldRam newRam : Finset (Fin E)) (promote : Fin E → Outcome) : Finset (Fin E) :=
  newRam.filter fun i => i ∉ oldRam → promote i = .ok

theorem filter_newcomers (oldRam newRam : Finset (Fin E)) (promote : Fin E → Outcome) :
    newRam.filter (fun i => i ∈ whereTrue (newRam \ oldRam) → promote i = .ok) = advertised oldRam newRam promote := by
  refine Finset.filter_congr fun i hi => ?_
  rw [mem_whereTrue, Finset.mem_sdiff]
  exact ⟨fun h hn => h ⟨hi, hn⟩, fun h hn => h hn.2⟩

/-- **The RAM phase where the store is.** It advertises the new mask without the failed promotions, leaves
the pinned mask in step with it, and keeps every advertised expert staged. -/
theorem ramPhase_owner (ev : TierEvent E α) (newRam : Finset (Fin E)) (hwired : m.Wired env) (h0 : m.tpRank = 0) :
    ∃ w', ramPhase env ev newRam m =
        { m with
          ramExpertsMask := advertised m.ramExpertsMask newRam ev.promote
          ramExpertsMaskCuda := advertised m.ramExpertsMask newRam ev.promote
          wrapper := some w' } ∧
      (ramPhase env ev newRam m).Wired env ∧
      (m.ramExpertsMask ⊆ m.store → advertised m.ramExpertsMask newRam ev.promote ⊆ w'.staged) := by
  obtain ⟨w, hw⟩ := Option.isSome_iff_exists.mp (hwired.owner.mpr h0)
  let m₁ : Method E := m.setRam newRam
  let w₁ : Wrapper E := { w with gpuExpertsMask := m₁.ktCpuSkipMask env }
  have hrefresh : (m₁.refreshWrapper env).wrapper = some w₁ := by
    simp [m₁, w₁, Method.setRam, Method.refreshWrapper, h0, hw, updateKtWrapperMasks]
  obtain ⟨w₂, hevicts, hmask₂, hstaged₂⟩ :=
    evicts_eq ev.evict (whereTrue (m.ramExpertsMask \ newRam)) hrefresh
  obtain ⟨w', hpromotes, hmask', hother, hself⟩ := promotes_eq env ev.promote
    (whereTrue (newRam \ m.ramExpertsMask)) (m := { m₁.refreshWrapper env with wrapper := some w₂ })
    h0 rfl hmask₂
  have hfilter := filter_newcomers m.ramExpertsMask newRam ev.promote
  have hresult : ramPhase env ev newRam m =
      { m with
        ramExpertsMask := advertised m.ramExpertsMask newRam ev.promote
        ramExpertsMaskCuda := advertised m.ramExpertsMask newRam ev.promote
        wrapper := some w' } := by
    unfold ramPhase
    rw [if_pos ⟨h0, Option.isSome_iff_exists.mpr ⟨w, hw⟩⟩]
    dsimp only
    rw [show m.setRam newRam = m₁ from rfl, hevicts, hpromotes, Method.withoutFailed, ← hfilter]
    rfl
  refine ⟨w', hresult, ?_, fun hsub e he => ?_⟩
  · rw [hresult]
    refine ⟨⟨fun _ => h0, fun _ => rfl⟩, fun w'' hw'' => ?_⟩
    obtain rfl := Option.some.inj hw''
    rw [hmask', Method.withoutFailed, ← hfilter]
    rfl
  · obtain ⟨hnew, hok⟩ := Finset.mem_filter.mp he
    by_cases hold : e ∈ m.ramExpertsMask
    · have hadd : e ∉ whereTrue (newRam \ m.ramExpertsMask) := fun h =>
        (Finset.mem_sdiff.mp (mem_whereTrue.mp h)).2 hold
      have hdrop : e ∉ whereTrue (m.ramExpertsMask \ newRam) := fun h =>
        (Finset.mem_sdiff.mp (mem_whereTrue.mp h)).2 hnew
      have hstore : e ∈ m.store := hsub hold
      rw [hother e hadd, hstaged₂ e hdrop]
      simpa [Method.store, hw] using hstore
    · exact hself e (mem_whereTrue.mpr (Finset.mem_sdiff.mpr ⟨hnew, hold⟩)) (hok hold)

/-- The RAM phase on the other ranks takes the new mask as it is. -/
theorem ramPhase_other {ev : TierEvent E α} {newRam : Finset (Fin E)} (h0 : m.tpRank ≠ 0) :
    ramPhase env ev newRam m = m.setRam newRam := by
  unfold ramPhase
  rw [if_neg]
  exact fun h => h0 h.1

/-- A layer whose RAM tier has become `ram`, and which is otherwise as it was. -/
structure RamMoved (env : Env α) (ram : Finset (Fin E)) (m m' : Method E) : Prop where
  tables : m.SameTables m'
  tpRank : m'.tpRank = m.tpRank
  wired : m'.Wired env
  ramMask : m'.ramExpertsMask = ram
  mirror : m'.ramExpertsMaskCuda = ram
  staged : m.tpRank = 0 → m.ramExpertsMask ⊆ m.store → ram ⊆ m'.store

/-- **The RAM phase** on any rank: the owner of the store advertises what it promoted, the others what they were
told. -/
theorem ramPhase_spec (ev : TierEvent E α) (newRam : Finset (Fin E)) (hwired : m.Wired env) :
    RamMoved env (if m.tpRank = 0 then advertised m.ramExpertsMask newRam ev.promote else newRam) m
      (ramPhase env ev newRam m) := by
  by_cases h0 : m.tpRank = 0
  · obtain ⟨w', heq, hw', hstaged⟩ := ramPhase_owner env ev newRam hwired h0
    rw [if_pos h0]
    rw [heq] at hw' ⊢
    exact ⟨⟨rfl, rfl, rfl, rfl, rfl, rfl, rfl⟩, rfl, hw', rfl, rfl, fun _ hsub => hstaged hsub⟩
  · -- the other ranks have no wrapper
    have hnone : ∀ w, m.wrapper ≠ some w := fun w hw => h0 (hwired.owner.mp (by rw [hw]; rfl))
    rw [if_neg h0, ramPhase_other env h0]
    exact ⟨m.sameTables_setRam newRam, rfl, ⟨hwired.owner, fun w hw => absurd hw (hnone w)⟩, rfl, rfl,
      fun h => absurd h h0⟩

theorem advertised_self (ram : Finset (Fin E)) : advertised ram ram promote = ram :=
  Finset.filter_true_of_mem fun _ hi hn => absurd hi hn

end RamPhase

/-! ## The whole tick on one rank -/

/-- What applying the sets `selGpu` and `selRam` leaves of a layer `m` of `n` residents. -/
structure TierApplied (env : Env α) (q : Quant) (ev : TierEvent E α) (store : Finset (Fin E))
    (selGpu selRam : List (Fin E)) (n : ℕ) (m m' : Method E) : Prop where
  seats : m'.Seats n
  wired : m'.Wired env
  tpRank : m'.tpRank = m.tpRank
  gpuMask : m'.gpuExpertsMask = if q = .mxfp4 then m.gpuExpertsMask else selGpu.toFinset
  ramMask : m'.ramExpertsMask =
    if q = .mxfp4 ∧ selGpu.toFinset ≠ m.gpuExpertsMask then m.ramExpertsMask
    else if m.tpRank = 0 then advertised m.ramExpertsMask selRam.toFinset ev.promote
    else selRam.toFinset
  mirror : m.ramExpertsMaskCuda = m.ramExpertsMask → m'.ramExpertsMaskCuda = m'.ramExpertsMask
  honest : m.Honest → (m'.Honest ↔ SourcesStaged q store selGpu m)
  staged : m.tpRank = 0 → m.ramExpertsMask ⊆ m.store → m'.ramExpertsMask ⊆ m'.store

/-- What applying the sets leaves of any tabled layer, whatever the sizes of the sets. -/
structure TierSet (env : Env α) (q : Quant) (ev : TierEvent E α) (store : Finset (Fin E))
    (selGpu selRam : List (Fin E)) (m m' : Method E) : Prop where
  tabled : ∃ t, m'.Tabled t
  numGpuExperts : m'.numGpuExperts = m.numGpuExperts
  wired : m'.Wired env
  tpRank : m'.tpRank = m.tpRank
  gpuMask : m'.gpuExpertsMask = if q = .mxfp4 then m.gpuExpertsMask else selGpu.toFinset
  ramMask : m'.ramExpertsMask =
    if q = .mxfp4 ∧ selGpu.toFinset ≠ m.gpuExpertsMask then m.ramExpertsMask
    else if m.tpRank = 0 then advertised m.ramExpertsMask selRam.toFinset ev.promote
    else selRam.toFinset
  mirror : m.ramExpertsMaskCuda = m.ramExpertsMask → m'.ramExpertsMaskCuda = m'.ramExpertsMask
  honest : m.Honest → (m'.Honest ↔ SourcesStaged q store selGpu m)
  staged : m.tpRank = 0 → m.ramExpertsMask ⊆ m.store → m'.ramExpertsMask ⊆ m'.store

section Apply

variable {env : Env α} {q : Quant} {ev : TierEvent E α} {store : Finset (Fin E)} {selGpu selRam : List (Fin E)}
  {n : ℕ} {m : Method E}

omit [LinearOrder α] in
/-- A change of the GPU set alone, where the RAM tier is to stay as it is. -/
theorem TierSet.of_changed {r : Bool × Method E} (hr : GpuSetChanged env q store selGpu m r) (hwired : m.Wired env)
    (hkeep : m.ramExpertsMask = if q = .mxfp4 ∧ selGpu.toFinset ≠ m.gpuExpertsMask then m.ramExpertsMask
      else if m.tpRank = 0 then advertised m.ramExpertsMask selRam.toFinset ev.promote
      else selRam.toFinset) : TierSet env q ev store selGpu selRam m r.2 where
  tabled := hr.tabled
  numGpuExperts := hr.numGpuExperts
  wired := hr.wired hwired
  tpRank := hr.ram.tpRank
  gpuMask := hr.gpuMask
  ramMask := hr.ram.ramMask.trans hkeep
  mirror h := hr.ram.ramMaskCuda.trans (h.trans hr.ram.ramMask.symm)
  honest := hr.honest
  staged _ hsub := by
    rw [hr.ram.store, hr.ram.ramMask]
    exact hsub

omit [LinearOrder α] in
/-- Handing the wrapper its mask again changes none of it. -/
theorem TierSet.refreshWrapper {m' : Method E} (h : TierSet env q ev store selGpu selRam m m') :
    TierSet env q ev store selGpu selRam m (m'.refreshWrapper env) where
  tabled := h.tabled.imp fun _ => (Method.sameTables_refreshWrapper env).tabled
  numGpuExperts := h.numGpuExperts
  wired := Method.refreshWrapper_wired h.wired.owner
  tpRank := h.tpRank
  gpuMask := h.gpuMask
  ramMask := h.ramMask
  mirror := h.mirror
  honest hhon := (Method.sameTables_refreshWrapper env).honest_iff.trans (h.honest hhon)
  staged h0 hsub := by
    rw [Method.store_refreshWrapper]
    exact h.staged h0 hsub

/-- **One application of the broadcast sets.** -/
theorem tierApply_tabled (hm : ∃ t, m.Tabled t) (hwired : m.Wired env) (hnodup : selGpu.Nodup) :
    TierSet env q ev store selGpu selRam m (tierApply env q ev store selGpu selRam m) := by
  have hr := changeGpuSet_changed env ev.ctxBuilt (env.ktTierIncremental ≠ 0) store q hm hnodup
  unfold tierApply
  dsimp only
  generalize changeGpuSet env q ev.ctxBuilt store (env.ktTierIncremental ≠ 0) selGpu m = r at *
  have hwired' := hr.wired hwired
  by_cases hdone : r.1 = true
  · have hgo : ¬ (q = .mxfp4 ∧ selGpu.toFinset ≠ m.gpuExpertsMask) := fun h =>
      (hr.completes.mp hdone).elim (fun hq => hq h.1) h.2
    rw [if_neg (not_not.mpr hdone)]
    by_cases hmove : m.ramExpertsMask ≠ selRam.toFinset
    · have h := ramPhase_spec env ev selRam.toFinset hwired'
      rw [hr.ram.tpRank, hr.ram.ramMask] at h
      rw [if_pos hmove]
      refine ⟨hr.tabled.imp fun t => h.tables.tabled, h.tables.numGpuExperts.trans hr.numGpuExperts, h.wired,
        h.tpRank.trans hr.ram.tpRank, h.tables.mask.trans hr.gpuMask, ?_, fun _ => h.mirror.trans h.ramMask.symm,
        fun hhon => h.tables.honest_iff.trans (hr.honest hhon), fun h0 hsub => ?_⟩
      · rw [if_neg hgo]
        exact h.ramMask
      · rw [h.ramMask]
        apply h.staged (hr.ram.tpRank.trans h0)
        rw [hr.ram.store, hr.ram.ramMask]
        exact hsub
    · rw [if_neg hmove]
      push Not at hmove
      have hkeep : m.ramExpertsMask = if q = .mxfp4 ∧ selGpu.toFinset ≠ m.gpuExpertsMask then m.ramExpertsMask
          else if m.tpRank = 0 then advertised m.ramExpertsMask selRam.toFinset ev.promote
          else selRam.toFinset := by
        rw [if_neg hgo, ← hmove, advertised_self, ite_self]
      have hset : TierSet env q ev store selGpu selRam m r.2 := .of_changed hr hwired hkeep
      by_cases hchanged : ¬ (whereTrue m.gpuExpertsMask).Perm selGpu
      · rw [if_pos hchanged]
        exact hset.refreshWrapper
      · rw [if_neg hchanged]
        exact hset
  · rw [if_pos hdone]
    have hstuck : q = .mxfp4 ∧ selGpu.toFinset ≠ m.gpuExpertsMask := by
      have hnot := hr.completes.not.mp hdone
      push Not at hnot
      exact hnot
    exact .of_changed hr hwired (if_pos hstuck).symm

/-- One application of sets of the size of the tiers. -/
theorem tierApply_spec (hm : m.Seats n) (hwired : m.Wired env) (hnodup : selGpu.Nodup) (hsize : selGpu.length = n) :
    TierApplied env q ev store selGpu selRam n m (tierApply env q ev store selGpu selRam m) := by
  have htabled : ∃ t, m.Tabled t := hm.imp fun t h => h.1
  obtain ⟨hmask, hnum⟩ := (seats_iff htabled).mp hm
  have h : TierSet env q ev store selGpu selRam m (tierApply env q ev store selGpu selRam m) :=
    tierApply_tabled htabled hwired hnodup
  refine ⟨(seats_iff h.tabled).mpr ⟨?_, h.numGpuExperts.trans hnum⟩, h.wired, h.tpRank, h.gpuMask, h.ramMask, h.mirror,
    h.honest, h.staged⟩
  rw [h.gpuMask]
  split
  · exact hmask
  · rw [List.toFinset_card_of_nodup hnodup, hsize]

end Apply

/-! ## The rank that owns the store -/

section Owner

variable {env : Env α} (q : Quant) (srt : Argsort (Fin E) α) (ev : TierEvent E α) {n : ℕ} {m : Method E}

/-- What holds of the owning rank between ticks, whatever the stores do: tables, wiring, disjoint tiers, and
every expert of the RAM tier staged. -/
structure Owned (env : Env α) (n : ℕ) (m : Method E) : Prop where
  seats : m.Seats n
  wired : m.Wired env
  tpRank : m.tpRank = 0
  disjoint : Disjoint m.gpuExpertsMask m.ramExpertsMask
  mirror : m.ramExpertsMaskCuda = m.ramExpertsMask
  staged : m.ramExpertsMask ⊆ m.store

omit [LinearOrder α] in
theorem boot_owned (adaptive : Bool) (ranking : Option (List (Fin E))) (gpuMask : Finset (Fin E)) :
    Owned env gpuMask.card (Method.boot env adaptive ranking 0 gpuMask) where
  seats := Method.boot_seats env adaptive ranking 0 gpuMask
  wired := Method.boot_wired env adaptive ranking 0 gpuMask
  tpRank := rfl
  disjoint := Method.boot_disjoint env adaptive ranking 0 gpuMask
  mirror := rfl
  staged := Method.boot_staged env adaptive ranking gpuMask

/-- What one tick leaves on the owning rank. -/
theorem ktTierUpdateLayer_applied (hseats : m.Seats n) (hwired : m.Wired env)
    (hdisj : Disjoint m.gpuExpertsMask m.ramExpertsMask) :
    TierApplied env q ev m.store (whereTrue (tierPlan env srt ev m).1) (whereTrue (tierPlan env srt ev m).2) n m
      (ktTierUpdateLayer env q srt m ev) := by
  refine tierApply_spec hseats hwired (whereTrue_nodup _) ?_
  rw [length_whereTrue, card_tierPlan_fst hdisj, hseats.card_mask]

theorem disjoint_of_applied {store : Finset (Fin E)} {m' : Method E}
    (hdisj : Disjoint m.gpuExpertsMask m.ramExpertsMask)
    (h : TierApplied env q ev store (whereTrue (tierPlan env srt ev m).1)
      (whereTrue (tierPlan env srt ev m).2) n m m') : Disjoint m'.gpuExpertsMask m'.ramExpertsMask := by
  have hplan : Disjoint (tierPlan env srt ev m).1 (tierPlan env srt ev m).2 := tierPlan_disjoint hdisj
  rw [h.gpuMask, h.ramMask, whereTrue_toFinset, whereTrue_toFinset]
  by_cases hstuck : q = .mxfp4 ∧ (tierPlan env srt ev m).1 ≠ m.gpuExpertsMask
  · rw [if_pos hstuck, if_pos hstuck.1]
    exact hdisj
  rw [if_neg hstuck]
  have hgpu : (if q = .mxfp4 then m.gpuExpertsMask else (tierPlan env srt ev m).1) = (tierPlan env srt ev m).1 := by
    by_cases hq : q = .mxfp4
    · rw [if_pos hq]
      by_contra hne
      exact hstuck ⟨hq, Ne.symm hne⟩
    · rw [if_neg hq]
  rw [hgpu]
  split
  · exact hplan.mono_right (Finset.filter_subset _ _)
  · exact hplan

/-- One tick keeps everything the owning rank relies on. -/
theorem ktTierUpdateLayer_owned (hm : Owned env n m) : Owned env n (ktTierUpdateLayer env q srt m ev) := by
  have h := ktTierUpdateLayer_applied q srt ev hm.seats hm.wired hm.disjoint
  exact ⟨h.seats, h.wired, h.tpRank.trans hm.tpRank, disjoint_of_applied q srt ev hm.disjoint h, h.mirror hm.mirror,
    h.staged hm.tpRank hm.staged⟩

end Owner

end ExpertServe
