import ExpertServe.Forward.Sides

/-!
# Predictive prefetch

A layer owns `S` landing slots behind the slots of its residents. A prediction made one layer earlier ranks the
experts it names that are not resident, copies them out of the CPU store into landing slots, and publishes
where they are. The copy writes W4AFP8 tensors, so the layers here are of that quantisation.

* `Layer.pfIssue`, `Layer.pfIssueFused`: one prediction, by torch operations and by the single kernel;
* `covered`: the experts a prediction covers, all it wants or none;
* `issues_spec`: after the predictions of a forward the landed experts are those the last one covers, and their
  slots hold what the store has of them.
-/

namespace ExpertServe

open Lib

variable {E S : ℕ}

/-- The prefetch switches, with the defaults of the source. `reuse` is the counting mode 1 of
`KT_PREFETCH_REUSE`. -/
structure PrefetchFlags where
  select : Bool := true
  selective : Bool := true
  route : Bool := true
  gather : Bool := true
  wait : Bool := true
  cpuskip : Bool := true
  fresh : Bool := true
  reuse : Bool := true

/-- `_KT_PREFETCH_ROUTE`: without the wait nothing is routed to a landing slot. -/
def PrefetchFlags.routes (fl : PrefetchFlags) : Bool := fl.route && fl.wait

/-- A layer with `S` landing slots: its residency state, and what predictions left. -/
structure Layer (E S : ℕ) where
  method : Method E
  pfSel : Fin S → Option (Fin E)
  pfLanded : Finset (Fin E)
  pfLandedCpu : Finset (Fin E)
  pfIndex : Fin E → ℤ
  pfHoldScore : Fin S → ℕ
  pfIssued : Bool

/-- The prefetch state `create_weights` allocates around a layer. -/
def Layer.boot (S : ℕ) (m : Method E) : Layer E S where
  method := m
  pfSel _ := none
  pfLanded := ∅
  pfLandedCpu := ∅
  pfIndex _ := 0
  pfHoldScore _ := 0
  pfIssued := false

/-! ## One prediction -/

/-- How often each expert is asked for, residents not counted. -/
def pfDemand (resident : Finset (Fin E)) (predictedIds : List (Fin E)) : Fin E → ℕ := fun e =>
  if e ∈ resident then 0 else predictedIds.count e

/-- The number of experts in demand. -/
def nWant (demand : Fin E → ℕ) : ℕ := (Finset.univ.filter fun e => 0 < demand e).card

/-- The expert at a place of the demand order, unless there is no demand for it or the layer is skipped. -/
def pick (fl : PrefetchFlags) (S : ℕ) (order : List (Fin E)) (demand : Fin E → ℕ) (place : ℕ) : Option (Fin E) :=
  order[place]?.filter fun e => 0 < demand e ∧ ¬ (fl.selective ∧ S < nWant demand)

/-- The landing slots by score, weakest first. -/
def evictionOrder (holdScore : Fin S → ℕ) : List (Fin S) := Argsort.stable.asc holdScore (List.finRange S)

/-- The slots that receive an expert, with the expert. -/
def landings (sel : Fin S → Option (Fin E)) : List (Fin S × Fin E) :=
  (List.finRange S).filterMap fun k => (sel k).map (k, ·)

/-- `stream_experts`: the store's bytes of each selected expert into its landing slot. -/
def Method.streamExperts (m : Method E) (sel : Fin S → Option (Fin E)) : Method E :=
  { m with slots := updates m.slots ((landings sel).map fun p => (m.numGpuExperts + p.1, cpuBytes m.store p.2)) }

/-- Publish where each selected expert landed. -/
def Layer.publish (fl : PrefetchFlags) (sel : Fin S → Option (Fin E)) (l : Layer E S) : Layer E S :=
  let landed := ((landings sel).map Prod.snd).toFinset
  { l with
    pfSel := sel
    pfLanded := if fl.routes then landed else ∅
    pfLandedCpu := if fl.cpuskip then landed else ∅
    pfIndex := updates l.pfIndex ((landings sel).map fun p => (p.2, (l.method.numGpuExperts + p.1 : ℤ))) }

/-- Copy the selection and say so. -/
def Layer.gather (sel : Fin S → Option (Fin E)) (l : Layer E S) : Layer E S :=
  { l with method := l.method.streamExperts sel, pfIssued := true }

/-- `pf_issue`; `none` is a raise. -/
def Layer.pfIssue (fl : PrefetchFlags) (topk : Argsort (Fin E) ℕ) (table : Bool) (predictedIds : List (Fin E))
    (l : Layer E S) : Option (Layer E S) :=
  if ¬ (0 < S ∧ table) then some l
  else if ¬ fl.select then some l
  else if E < S then none
  else
    let demand := pfDemand l.method.gpuExpertsMaskCuda predictedIds
    let sel : Fin S → Option (Fin E) := fun k => pick fl S (topk.order demand) demand k
    if ¬ fl.gather then some { l with pfSel := sel, pfLanded := ∅, pfLandedCpu := ∅ }
    else some ((l.gather sel).publish fl sel)

/-- `pf_issue_fused` on the ids its kernel scores out of `tokens` rows; `none` is a raise. -/
def Layer.pfIssueFused (fl : PrefetchFlags) (table : Bool) (predictedIds : List (Fin E)) (tokens : ℕ)
    (l : Layer E S) : Option (Layer E S) :=
  if ¬ (0 < S ∧ table) then some l
  else if ¬ fl.select then some l
  else if E ≠ 256 ∨ 16 < S ∨ 8 < tokens then none
  else
    let demand := pfDemand l.method.gpuExpertsMaskCuda predictedIds
    let sel : Fin S → Option (Fin E) := fun k =>
      pick fl S (Argsort.stable.order demand) demand ((evictionOrder l.pfHoldScore).idxOf k)
    let published := l.publish fl sel
    if ¬ fl.gather then some published
    else some (Layer.gather sel
      { published with
        pfHoldScore := fun k =>
          if ¬ fl.reuse then l.pfHoldScore k else if (sel k).isSome then 2 else l.pfHoldScore k - 1 })

/-- A prediction for the layer, and which of the two paths it takes. -/
inductive Issue (E : ℕ) where
  | plain (predictedIds : List (Fin E))
  | fused (predictedIds : List (Fin E)) (tokens : ℕ)

def Issue.predictedIds : Issue E → List (Fin E)
  | .plain ids => ids
  | .fused ids _ => ids

/-- The prediction raises on an active layer with `S` landing slots. -/
def Issue.Rejected (S : ℕ) : Issue E → Prop
  | .plain _ => E < S
  | .fused _ tokens => E ≠ 256 ∨ 16 < S ∨ 8 < tokens

/-- One prediction. -/
def Layer.issue (fl : PrefetchFlags) (topk : Argsort (Fin E) ℕ) (table : Bool) (l : Layer E S) :
    Issue E → Option (Layer E S)
  | .plain ids => l.pfIssue fl topk table ids
  | .fused ids tokens => l.pfIssueFused fl table ids tokens

/-- The predictions of one forward, in order. -/
def Layer.issues (fl : PrefetchFlags) (topk : Argsort (Fin E) ℕ) (table : Bool) (l : Layer E S) :
    List (Issue E) → Option (Layer E S)
  | [] => some l
  | is :: rest => (l.issue fl topk table is).bind fun l' => l'.issues fl topk table rest

/-- The experts a prediction covers: all it wants, if there is a slot for each, else none. -/
def covered (S : ℕ) (resident : Finset (Fin E)) (predictedIds : List (Fin E)) : Finset (Fin E) :=
  if (predictedIds.toFinset \ resident).card ≤ S then predictedIds.toFinset \ resident else ∅

/-! ## The selection -/

/-- A selection seats exactly the experts of a set, each in one slot. -/
structure Selects (sel : Fin S → Option (Fin E)) (wanted : Finset (Fin E)) : Prop where
  mem_iff : ∀ e, (∃ k, sel k = some e) ↔ e ∈ wanted
  inj : ∀ k k' e, sel k = some e → sel k' = some e → k = k'

section Selection

variable {resident : Finset (Fin E)} {ids : List (Fin E)} {sel : Fin S → Option (Fin E)} {wanted : Finset (Fin E)}

theorem pfDemand_pos_iff {e : Fin E} : 0 < pfDemand resident ids e ↔ e ∈ ids.toFinset \ resident := by
  unfold pfDemand
  rw [Finset.mem_sdiff, List.mem_toFinset]
  by_cases he : e ∈ resident
  · rw [if_pos he]
    exact ⟨fun h => absurd h (lt_irrefl 0), fun h => absurd he h.2⟩
  · rw [if_neg he, List.count_pos_iff]
    exact ⟨fun h => ⟨h, he⟩, fun h => h.1⟩

theorem nWant_pfDemand : nWant (pfDemand resident ids) = (ids.toFinset \ resident).card := by
  unfold nWant
  congr 1
  ext e
  rw [Finset.mem_filter]
  exact ⟨fun h => pfDemand_pos_iff.mp h.2, fun h => ⟨Finset.mem_univ e, pfDemand_pos_iff.mpr h⟩⟩

theorem covered_subset : covered S resident ids ⊆ ids.toFinset \ resident := by
  unfold covered
  split
  · exact subset_rfl
  · exact Finset.empty_subset _

/-- A slot picks the expert whose place in the demand order it has, if that expert is wanted and the layer is not
skipped. -/
theorem pick_eq_some_iff {fl : PrefetchFlags} (srt : Argsort (Fin E) ℕ) {place : ℕ} {e : Fin E} :
    pick fl S (srt.order (pfDemand resident ids)) (pfDemand resident ids) place = some e ↔
      srt.rank (pfDemand resident ids) e = place ∧ e ∈ ids.toFinset \ resident ∧
        ¬ (fl.selective = true ∧ S < (ids.toFinset \ resident).card) := by
  unfold pick
  rw [Option.filter_eq_some_iff, srt.getElem?_order_eq_some_iff, nWant_pfDemand, decide_eq_true_iff, pfDemand_pos_iff]

variable (resident ids) in
/-- However the slots are numbered, each picks its own expert, a wanted one. -/
theorem selects_of_pick (fl : PrefetchFlags) (srt : Argsort (Fin E) ℕ) {place : Fin S → ℕ}
    (hinj : Function.Injective place) :
    ∃ wanted ⊆ ids.toFinset \ resident,
      Selects (fun k => pick fl S (srt.order (pfDemand resident ids)) (pfDemand resident ids) (place k)) wanted := by
  refine ⟨Finset.univ.filter fun e => ∃ k,
      pick fl S (srt.order (pfDemand resident ids)) (pfDemand resident ids) (place k) = some e,
    fun e he => ?_, fun e => by simp, fun k k' e hk hk' => ?_⟩
  · obtain ⟨k, hk⟩ := (Finset.mem_filter.mp he).2
    exact ((pick_eq_some_iff srt).mp hk).2.1
  · rw [pick_eq_some_iff] at hk hk'
    exact hinj (hk.1.symm.trans hk'.1)

/-- Whatever way the slots are numbered, picking by demand covers all that is wanted, or nothing. -/
theorem selects_pick (srt : Argsort (Fin E) ℕ) {place : Fin S → ℕ} (hinj : Function.Injective place)
    (hsurj : ∀ p < S, ∃ k, place k = p) :
    Selects (fun k => pick {} S (srt.order (pfDemand resident ids)) (pfDemand resident ids) (place k))
      (covered S resident ids) := by
  have hpick : ∀ k e, pick {} S (srt.order (pfDemand resident ids)) (pfDemand resident ids) (place k) = some e ↔
      srt.rank (pfDemand resident ids) e = place k ∧ e ∈ covered S resident ids := by
    intro k e
    rw [pick_eq_some_iff]
    unfold covered
    by_cases hfit : (ids.toFinset \ resident).card ≤ S
    · rw [if_pos hfit]
      simp [not_lt.mpr hfit]
    · rw [if_neg hfit]
      simp [not_le.mp hfit]
  constructor
  · intro e
    simp only [hpick]
    refine ⟨fun ⟨_, _, he⟩ => he, fun he => ?_⟩
    -- the wanted experts come first in the order, and there is a slot for each
    unfold covered at he
    split at he
    · next hcard =>
      have hrank : srt.rank (pfDemand resident ids) e < S := by
        have hlt := (srt.rank_lt_card_iff (pfDemand resident ids) 0 e).mpr (pfDemand_pos_iff.mpr he)
        have hall : (Finset.univ.filter fun j => 0 < pfDemand resident ids j).card =
          (ids.toFinset \ resident).card := nWant_pfDemand
        omega
      obtain ⟨k, hk⟩ := hsurj _ hrank
      refine ⟨k, hk.symm, ?_⟩
      unfold covered
      rwa [if_pos hcard]
    · exact absurd he (Finset.notMem_empty e)
  · intro k k' e hk hk'
    rw [hpick] at hk hk'
    exact hinj (hk.1.symm.trans hk'.1)

/-- The eviction order numbers the slots. -/
theorem evictionOrder_places (holdScore : Fin S → ℕ) :
    Function.Injective (fun k => (evictionOrder holdScore).idxOf k) ∧
      ∀ p < S, ∃ k, (evictionOrder holdScore).idxOf k = p := by
  have hmem : ∀ k, k ∈ evictionOrder holdScore := fun k => Argsort.stable.mem_asc.mpr (List.mem_finRange k)
  have hnodup : (evictionOrder holdScore).Nodup := Argsort.stable.nodup_asc (List.nodup_finRange S)
  have hlen : (evictionOrder holdScore).length = S := Argsort.stable.length_asc.trans List.length_finRange
  constructor
  · intro k k' h
    exact (List.idxOf_inj (hmem k)).mp h
  · intro p hp
    have hp' : p < (evictionOrder holdScore).length := by omega
    exact ⟨(evictionOrder holdScore)[p], hnodup.idxOf_getElem p hp'⟩

theorem idxOf_evictionOrder_lt (holdScore : Fin S → ℕ) (k : Fin S) : (evictionOrder holdScore).idxOf k < S := by
  have hmem : k ∈ evictionOrder holdScore := Argsort.stable.mem_asc.mpr (List.mem_finRange k)
  have hlen : (evictionOrder holdScore).length = S := Argsort.stable.length_asc.trans List.length_finRange
  exact (List.idxOf_lt_length_of_mem hmem).trans_eq hlen

theorem mem_landings {k : Fin S} {e : Fin E} : (k, e) ∈ landings sel ↔ sel k = some e := by
  unfold landings
  rw [List.mem_filterMap]
  constructor
  · rintro ⟨k', -, h⟩
    obtain ⟨e', he', heq⟩ := Option.map_eq_some_iff.mp h
    cases heq
    exact he'
  · intro h
    exact ⟨k, List.mem_finRange k, by rw [h]; rfl⟩

/-- The experts that land are those of the selection. -/
theorem mem_landed {e : Fin E} : e ∈ ((landings sel).map Prod.snd).toFinset ↔ ∃ k, sel k = some e := by
  rw [List.mem_toFinset, List.mem_map]
  refine ⟨fun ⟨p, hp, he⟩ => ⟨p.1, mem_landings.mp (he ▸ hp)⟩, fun ⟨k, hk⟩ => ⟨(k, e), mem_landings.mpr hk, rfl⟩⟩

theorem landings_nodup_fst : ((landings sel).map Prod.fst).Nodup := by
  have hsub : ((landings sel).map Prod.fst).Sublist (List.finRange S) := by
    unfold landings
    induction List.finRange S with
    | nil => exact List.Sublist.slnil
    | cons k ks ih =>
      cases hk : sel k with
      | none => simpa [hk] using ih.cons k
      | some e => simpa [hk] using ih
  exact hsub.nodup (List.nodup_finRange S)

theorem Selects.nodup_snd (h : Selects sel wanted) : ((landings sel).map Prod.snd).Nodup := by
  refine (List.Nodup.of_map Prod.fst landings_nodup_fst).map_on fun p hp p' hp' heq => ?_
  have hk := mem_landings.mp hp
  have hk' := mem_landings.mp hp'
  rw [← heq] at hk'
  exact Prod.ext (h.inj _ _ _ hk hk') heq

theorem Selects.toFinset_snd (h : Selects sel wanted) : ((landings sel).map Prod.snd).toFinset = wanted := by
  ext e
  rw [mem_landed, h.mem_iff]

end Selection

/-! ## What a prediction leaves -/

/-- The experts of a set sit in landing slots of a layer whose state was `m`: both masks name them, the index
leads to the store's bytes, and nothing else of the layer has changed. -/
structure Layer.Landed (m : Method E) (l : Layer E S) (wanted : Finset (Fin E)) : Prop where
  method : ∃ slots, l.method = { m with slots := slots } ∧ ∀ s < m.numGpuExperts, slots s = m.slots s
  landed : l.pfLanded = wanted
  landedCpu : l.pfLandedCpu = wanted
  bytes : ∀ e ∈ wanted, 0 ≤ l.pfIndex e ∧ l.method.slots (l.pfIndex e).toNat = cpuBytes m.store e
  index_lt : ∀ e ∈ wanted, l.pfIndex e < m.numGpuExperts + S
  issued : l.pfIssued = true

section Landed

variable {m : Method E} {l l' : Layer E S} {sel : Fin S → Option (Fin E)} {wanted : Finset (Fin E)}
  {topk : Argsort (Fin E) ℕ} {ids : List (Fin E)} {is : Issue E}

/-- The copy writes landing slots only. -/
theorem streamExperts_of_lt {s : ℕ} (hs : s < m.numGpuExperts) : (m.streamExperts sel).slots s = m.slots s := by
  refine updates_of_notMem fun p hp => ?_
  obtain ⟨q, -, rfl⟩ := List.mem_map.mp hp
  show m.numGpuExperts + (q.1 : ℕ) ≠ s
  omega

theorem streamExperts_slot {k : Fin S} {e : Fin E} (hk : sel k = some e) :
    (m.streamExperts sel).slots (m.numGpuExperts + k) = cpuBytes m.store e := by
  have hnodup : (((landings sel).map fun p => (m.numGpuExperts + (p.1 : ℕ), cpuBytes m.store p.2)).map
      Prod.fst).Nodup := by
    rw [List.map_map]
    refine (List.Nodup.of_map Prod.fst landings_nodup_fst).map_on fun p hp p' hp' heq => ?_
    have hfst : p.1 = p'.1 := Fin.ext (Nat.add_left_cancel heq)
    have hsnd := (mem_landings.mp hp).symm.trans (hfst ▸ mem_landings.mp hp')
    exact Prod.ext hfst (Option.some.inj hsnd)
  exact updates_of_mem hnodup (List.mem_map.mpr ⟨(k, e), mem_landings.mpr hk, rfl⟩)

theorem publish_index (h : Selects sel wanted) {k : Fin S} {e : Fin E} (hk : sel k = some e) :
    (l.publish {} sel).pfIndex e = l.method.numGpuExperts + k := by
  have hnodup : (((landings sel).map fun p => (p.2, (l.method.numGpuExperts + p.1 : ℤ))).map Prod.fst).Nodup := by
    rw [List.map_map]
    exact h.nodup_snd
  exact updates_of_mem hnodup (List.mem_map.mpr ⟨(k, e), mem_landings.mpr hk, rfl⟩)

/-- A layer that has gathered and published a selection. -/
theorem landed_of_selects (h : Selects sel wanted) {score : Fin S → ℕ} :
    Layer.Landed l.method (Layer.gather sel { l.publish {} sel with pfHoldScore := score }) wanted where
  method := ⟨(l.method.streamExperts sel).slots, rfl, fun s hs => streamExperts_of_lt hs⟩
  landed := h.toFinset_snd
  landedCpu := h.toFinset_snd
  bytes e he := by
    obtain ⟨k, hk⟩ := (h.mem_iff e).mpr he
    show 0 ≤ (l.publish {} sel).pfIndex e ∧ (l.method.streamExperts sel).slots ((l.publish {} sel).pfIndex e).toNat = _
    rw [publish_index h hk]
    refine ⟨by omega, ?_⟩
    have htonat : ((l.method.numGpuExperts : ℤ) + (k : ℕ)).toNat = l.method.numGpuExperts + k := by omega
    rw [htonat, streamExperts_slot hk]
  index_lt e he := by
    obtain ⟨k, hk⟩ := (h.mem_iff e).mpr he
    show (l.publish {} sel).pfIndex e < _
    rw [publish_index h hk]
    omega
  issued := rfl

/-- A prediction by torch operations lands what its slots pick, with `KT_PREFETCH_SELECTIVE` on or off. -/
theorem pfIssue_landed {selective : Bool} (hS : 0 < S)
    (h : l.pfIssue { selective := selective } topk true ids = some l')
    (hsel : Selects (fun k : Fin S => pick { selective := selective } S
      (topk.order (pfDemand l.method.gpuExpertsMaskCuda ids)) (pfDemand l.method.gpuExpertsMaskCuda ids) k) wanted) :
    Layer.Landed l.method l' wanted := by
  unfold Layer.pfIssue at h
  rw [if_neg (not_not.mpr ⟨hS, rfl⟩), if_neg (not_not.mpr rfl)] at h
  split at h
  · exact absurd h.symm (Option.some_ne_none l')
  · dsimp only at h
    rw [if_neg (not_not.mpr rfl)] at h
    cases h
    exact landed_of_selects hsel

/-- A prediction by the single kernel lands what its slots pick. -/
theorem pfIssueFused_landed {selective : Bool} (hS : 0 < S) {tokens : ℕ}
    (h : l.pfIssueFused { selective := selective } true ids tokens = some l')
    (hsel : Selects (fun k : Fin S => pick { selective := selective } S
      (Argsort.stable.order (pfDemand l.method.gpuExpertsMaskCuda ids)) (pfDemand l.method.gpuExpertsMaskCuda ids)
      ((evictionOrder l.pfHoldScore).idxOf k)) wanted) :
    Layer.Landed l.method l' wanted := by
  unfold Layer.pfIssueFused at h
  rw [if_neg (not_not.mpr ⟨hS, rfl⟩), if_neg (not_not.mpr rfl)] at h
  split at h
  · exact absurd h.symm (Option.some_ne_none l')
  · dsimp only at h
    rw [if_neg (not_not.mpr rfl)] at h
    cases h
    exact landed_of_selects hsel

/-- A prediction on an active layer raises exactly when it is rejected. -/
theorem issue_eq_none_iff (hS : 0 < S) : l.issue {} topk true is = none ↔ is.Rejected S := by
  have hon : ¬ ¬ (0 < S ∧ (true = true)) := not_not.mpr ⟨hS, rfl⟩
  cases is with
  | plain ids =>
    show l.pfIssue {} topk true ids = none ↔ E < S
    unfold Layer.pfIssue
    rw [if_neg hon, if_neg (by decide)]
    split <;> simp [*]
  | fused ids tokens =>
    show l.pfIssueFused {} true ids tokens = none ↔ E ≠ 256 ∨ 16 < S ∨ 8 < tokens
    unfold Layer.pfIssueFused
    rw [if_neg hon, if_neg (by decide)]
    split <;> simp [*]

/-- One prediction on an active layer lands what it covers. -/
theorem issue_spec (hS : 0 < S) (h : l.issue {} topk true is = some l') :
    Layer.Landed l.method l' (covered S l.method.gpuExpertsMaskCuda is.predictedIds) := by
  cases is with
  | plain ids =>
    have hsurj : ∀ p < S, ∃ k : Fin S, (k : ℕ) = p := fun p hp => ⟨⟨p, hp⟩, rfl⟩
    exact pfIssue_landed hS h (selects_pick topk Fin.val_injective hsurj)
  | fused ids tokens =>
    obtain ⟨hinj, hsurj⟩ := evictionOrder_places l.pfHoldScore
    exact pfIssueFused_landed hS h (selects_pick Argsort.stable hinj hsurj)

/-- Whether or not predictions are selective, one on an active layer lands some of what it names. -/
theorem issue_lands {selective : Bool} (hS : 0 < S) (h : l.issue { selective := selective } topk true is = some l') :
    ∃ wanted ⊆ is.predictedIds.toFinset \ l.method.gpuExpertsMaskCuda, Layer.Landed l.method l' wanted := by
  cases is with
  | plain ids =>
    obtain ⟨wanted, hsub, hsel⟩ := selects_of_pick l.method.gpuExpertsMaskCuda ids { selective := selective } topk
      (Fin.val_injective : Function.Injective fun k : Fin S => (k : ℕ))
    exact ⟨wanted, hsub, pfIssue_landed hS h hsel⟩
  | fused ids tokens =>
    obtain ⟨wanted, hsub, hsel⟩ := selects_of_pick l.method.gpuExpertsMaskCuda ids { selective := selective }
      Argsort.stable (evictionOrder_places l.pfHoldScore).1
    exact ⟨wanted, hsub, pfIssueFused_landed hS h hsel⟩

/-- On a layer without slots or without a pointer table a prediction does nothing. -/
theorem issue_inert {fl : PrefetchFlags} {table : Bool} (h : ¬ (0 < S ∧ table = true)) :
    l.issue fl topk table is = some l := by
  cases is with
  | plain ids => exact if_pos h
  | fused ids tokens => exact if_pos h

/-- Predictions that follow one another are judged by the slots they leave, not by those they find. -/
theorem Layer.Landed.trans {w : Finset (Fin E)} (h : l.Landed m w) (h' : Layer.Landed l.method l' wanted) :
    l'.Landed m wanted := by
  obtain ⟨slots, hm, hslots⟩ := h.method
  obtain ⟨slots', hm', hslots'⟩ := h'.method
  have hstore : l.method.store = m.store := by
    rw [hm]
    rfl
  have hindex := h'.index_lt
  rw [hm] at hm' hslots' hindex
  refine ⟨⟨slots', hm', fun s hs => (hslots' s hs).trans (hslots s hs)⟩, h'.landed, h'.landedCpu, ?_, hindex, h'.issued⟩
  rw [← hstore]
  exact h'.bytes

/-- **The predictions of one forward** on an active layer: they raise exactly when one of them is rejected, and
otherwise the landed experts are those the last one covers. -/
theorem issues_spec (hS : 0 < S) (is : List (Issue E)) (l : Layer E S) :
    (l.issues {} topk true is = none ↔ ∃ i ∈ is, i.Rejected S) ∧
      ∀ l', l.issues {} topk true is = some l' → ∀ i ∈ is.getLast?,
        Layer.Landed l.method l' (covered S l.method.gpuExpertsMaskCuda i.predictedIds) := by
  induction is generalizing l with
  | nil => exact ⟨by simp [Layer.issues], fun l' _ i hi => absurd hi (by simp)⟩
  | cons i rest ih =>
    have hcons : l.issues {} topk true (i :: rest) =
        (l.issue {} topk true i).bind fun l' => l'.issues {} topk true rest := rfl
    rw [hcons]
    cases hi : l.issue {} topk true i with
    | none =>
      have hrej : i.Rejected S := (issue_eq_none_iff hS).mp hi
      refine ⟨⟨fun _ => ⟨i, List.mem_cons_self, hrej⟩, fun _ => rfl⟩, fun l' hl' => ?_⟩
      exact absurd hl'.symm (Option.some_ne_none l')
    | some l₁ =>
      have hnot : ¬ i.Rejected S := fun hrej =>
        Option.some_ne_none l₁ (hi.symm.trans ((issue_eq_none_iff hS).mpr hrej))
      have hland : Layer.Landed l.method l₁ (covered S l.method.gpuExpertsMaskCuda i.predictedIds) :=
        issue_spec hS hi
      obtain ⟨hnone, hlast⟩ := ih l₁
      refine ⟨?_, fun l' hl' j hj => ?_⟩
      · rw [Option.bind_some, hnone]
        simp [hnot]
      rw [Option.bind_some] at hl'
      cases rest with
      | nil =>
        cases hl'
        have hij : i = j := by simpa using hj
        exact hij ▸ hland
      | cons i' rest =>
        have hmask : l₁.method.gpuExpertsMaskCuda = l.method.gpuExpertsMaskCuda := by
          obtain ⟨slots, hm, -⟩ := hland.method
          rw [hm]
        rw [List.getLast?_cons_cons] at hj
        rw [← hmask]
        exact hland.trans (hlast l' hl' j hj)

/-- Without slots or without a pointer table no prediction does anything. -/
theorem issues_inert {fl : PrefetchFlags} {table : Bool} (h : ¬ (0 < S ∧ table = true)) (is : List (Issue E)) :
    l.issues fl topk table is = some l := by
  induction is with
  | nil => rfl
  | cons i rest ih =>
    show ((l.issue fl topk table i).bind fun l' => l'.issues fl topk table rest) = some l
    rw [issue_inert h]
    exact ih

/-- The predictions of one forward on an active layer land some of what the last one names. -/
theorem issues_land {selective : Bool} (hS : 0 < S) (is : List (Issue E)) (l : Layer E S)
    (h : l.issues { selective := selective } topk true is = some l') {i : Issue E} (hi : is.getLast? = some i) :
    ∃ wanted ⊆ i.predictedIds.toFinset \ l.method.gpuExpertsMaskCuda, Layer.Landed l.method l' wanted := by
  induction is generalizing l with
  | nil => exact absurd hi (by simp)
  | cons j rest ih =>
    obtain ⟨l₁, hl₁, hrest⟩ := Option.bind_eq_some_iff.mp h
    obtain ⟨w, hw, hland⟩ := issue_lands hS hl₁
    cases rest with
    | nil =>
      cases hrest
      obtain rfl : j = i := by simpa using hi
      exact ⟨w, hw, hland⟩
    | cons j' rest =>
      rw [List.getLast?_cons_cons] at hi
      obtain ⟨wanted, hsub, hland'⟩ := ih l₁ hrest hi
      obtain ⟨slots, hm, -⟩ := hland.method
      rw [hm] at hsub
      exact ⟨wanted, hsub, hland.trans hland'⟩

end Landed

end ExpertServe
