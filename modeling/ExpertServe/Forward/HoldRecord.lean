import ExpertServe.Forward.PredFused

/-!
# The hold record under both issue paths

A layer can be predicted for by torch operations as well as by the fused kernel. Both gather into the same landing
slots, but only the kernel keeps the record `pf_hold` of what they hold, and in mode 2 it keeps a slot on the word of
that record.

* `LandingSlots.pfIssue`, `LandingSlots.pfIssueFused`: the two paths on one layer, `KT_PREFETCH_REUSE=2`;
* `LandingSlots.Intact`: the record is accurate and what is published is where the index says;
* `LandingSlots.KeepsRecord`: the unfused path writes no slot whose entry names another expert;
* `pfIssues_intact_iff`: a run stays intact exactly when all its steps keep the record.
-/

namespace ExpertServe

open Lib

variable {E S : ℕ} {α : Type*}

/-- A prediction for the layer by torch operations: the ids, the residents and the mapped rows it meets. -/
structure PlainIssue (E : ℕ) where
  predictedIds : List (Fin E)
  resident : Finset (Fin E)
  mapped : Finset (Fin E)

/-- A prediction for the layer, and which of the two paths it takes. -/
inductive HoldIssue (E : ℕ) (α : Type*) where
  | plain (i : PlainIssue E)
  | fused (c : PredCall E α)

/-- A layer's constants: the switches, how `torch.topk` sorts, the sigmoid and the place of its first landing slot. -/
structure PfConfig (E : ℕ) (α : Type*) where
  flags : PrefetchFlags
  topk : Argsort (Fin E) ℕ
  sigmoid : α → α
  slotBase : ℕ

/-- The selection of the unfused path, slot by slot. -/
def PlainIssue.selected (cfg : PfConfig E α) (i : PlainIssue E) (k : Fin S) : Option (Fin E) :=
  let demand := pfDemand i.resident i.predictedIds
  pick cfg.flags S (cfg.topk.order demand) demand k

/-- The expert that comes at a place of the demand order is wanted, and the layer is not skipped. -/
def PlainIssue.Takes (cfg : PfConfig E α) (S : ℕ) (i : PlainIssue E) (place : ℕ) (e : Fin E) : Prop :=
  cfg.topk.rank (pfDemand i.resident i.predictedIds) e = place ∧ e ∈ i.predictedIds.toFinset \ i.resident ∧
    ¬ (cfg.flags.selective = true ∧ S < (i.predictedIds.toFinset \ i.resident).card)

namespace LandingSlots

variable (cfg : PfConfig E α)

/-- Publish where each selected expert went. -/
def publish (s : LandingSlots E S) : LandingSlots E S :=
  let landed := ((landings s.sel).map Prod.snd).toFinset
  { s with
    landed := if cfg.flags.routes then landed else ∅
    landedCpu := if cfg.flags.cpuskip then landed else ∅
    index := updates s.index ((landings s.sel).map fun p => (p.2, (cfg.slotBase + p.1 : ℤ))) }

/-- `pf_issue`: it leaves `hold` as it is. -/
def pfIssue (i : PlainIssue E) (s : LandingSlots E S) : Option (LandingSlots E S) :=
  if ¬ cfg.flags.select then some s
  else if E < S then none
  else
    let sel := i.selected cfg
    if ¬ cfg.flags.gather then some { s with sel := sel, landed := ∅, landedCpu := ∅ }
    else (streamExperts i.mapped { s with sel := sel }).map (publish cfg)

/-- What the layer passes to the kernel. -/
def kernelArgs (c : PredCall E α) : PredCall E α :=
  { c with
    slotBase := cfg.slotBase
    selective := cfg.flags.selective
    route := cfg.flags.routes
    cpuskip := cfg.flags.cpuskip }

/-- What is reported as landed is where the index says. -/
def Honest (s : LandingSlots E S) : Prop :=
  ∀ e ∈ s.landed ∪ s.landedCpu, ∃ k : Fin S, s.index e = cfg.slotBase + k ∧ s.content k = some e

/-- The record names what the slots hold and, where the gather runs, so do the published masks and index. -/
def Intact : Option (LandingSlots E S) → Prop
  | some s => s.HoldAccurate ∧ (cfg.flags.gather = true → s.Honest cfg)
  | none => True

/-- An unfused prediction that copies anything copies no expert into a slot whose entry names another. -/
def KeepsRecord : Option (LandingSlots E S) → HoldIssue E α → Prop
  | some s, .plain i =>
    cfg.flags.select = true → cfg.flags.gather = true → S ≤ E →
      (∀ (k : Fin S) e, i.Takes cfg S k e → e ∈ i.mapped) →
        ∀ (k : Fin S) e, i.Takes cfg S k e → s.hold k = none ∨ s.hold k = some e
  | _, _ => True

variable [Field α] [LinearOrder α]

/-- `pf_issue_fused` with `KT_PREFETCH_REUSE=2`; without the gather the mode is 0. -/
def pfIssueFused (c : PredCall E α) (s : LandingSlots E S) : Option (LandingSlots E S) :=
  if ¬ cfg.flags.select then some s
  else if ¬ cfg.flags.gather then s.predFused cfg.sigmoid .off (kernelArgs cfg c)
  else predStep cfg.sigmoid (some s) (kernelArgs cfg c)

/-- One prediction; `none` is a process that has ended. -/
def issue : Option (LandingSlots E S) → HoldIssue E α → Option (LandingSlots E S)
  | none, _ => none
  | some s, .plain i => s.pfIssue cfg i
  | some s, .fused c => s.pfIssueFused cfg c

end LandingSlots

/-! ## One prediction -/

namespace LandingSlots

section Issue

variable {cfg : PfConfig E α} {s s' : LandingSlots E S} {i : PlainIssue E} {c : PredCall E α}

/-- Publishing a selection of distinct experts after its gather is honest. -/
theorem publish_honest (hinj : ∀ k k' e, s.sel k = some e → s.sel k' = some e → k = k')
    (hcontent : ∀ k e, s.sel k = some e → s.content k = some e) : (s.publish cfg).Honest cfg := by
  have hsel : Selects s.sel (Finset.univ.filter fun e => ∃ k, s.sel k = some e) := ⟨fun e => by simp, hinj⟩
  intro e he
  have hlanded : e ∈ ((landings s.sel).map Prod.snd).toFinset := by
    rcases Finset.mem_union.mp he with he | he
    · unfold publish at he
      dsimp only at he
      split at he
      · exact he
      · exact absurd he (Finset.notMem_empty e)
    · unfold publish at he
      dsimp only at he
      split at he
      · exact he
      · exact absurd he (Finset.notMem_empty e)
  rw [hsel.toFinset_snd, ← hsel.mem_iff] at hlanded
  obtain ⟨k, hk⟩ := hlanded
  refine ⟨k, updates_of_mem ?_ (List.mem_map.mpr ⟨(k, e), mem_landings.mpr hk, rfl⟩), hcontent k e hk⟩
  rw [List.map_map]
  exact hsel.nodup_snd

/-- What the unfused path selects. -/
theorem selected_eq_some_iff {k : Fin S} {e : Fin E} : i.selected cfg k = some e ↔ i.Takes cfg S k e :=
  pick_eq_some_iff cfg.topk

/-- The gather faults exactly when it meets a zero row. -/
theorem streamExperts_eq_none_iff {mapped : Finset (Fin E)} :
    s.streamExperts mapped = none ↔ ∃ k e, s.sel k = some e ∧ e ∉ mapped := by
  unfold streamExperts
  split
  · next h =>
    refine ⟨fun h => absurd h (Option.some_ne_none _), fun ⟨k, e, hk, he⟩ => ?_⟩
    exact absurd (h (k, e) (mem_landings.mpr hk)) he
  · next h =>
    push Not at h
    obtain ⟨⟨k, e⟩, hk, he⟩ := h
    exact ⟨fun _ => ⟨k, e, mem_landings.mp hk, he⟩, fun _ => rfl⟩

/-- Writing a selection over the slots leaves a record accurate exactly where it names none of the experts lost. -/
theorem holdAccurate_overwrite_iff {sel : Fin S → Option (Fin E)} (hs : s.HoldAccurate) (hhold : s'.hold = s.hold)
    (hcontent : ∀ k, s'.content k = (sel k).or (s.content k)) :
    s'.HoldAccurate ↔ ∀ k e, sel k = some e → s.hold k = none ∨ s.hold k = some e := by
  constructor
  · intro h k e hk
    cases hheld : s.hold k with
    | none => exact .inl rfl
    | some e' =>
      have hnow := h.content k e' (by rw [hhold]; exact hheld)
      rw [hcontent, hk] at hnow
      exact .inr hnow.symm
  · intro h
    constructor
    · rw [hhold]
      exact hs.distinct
    · intro k e hk
      rw [hhold] at hk
      rw [hcontent]
      cases hsel : sel k with
      | none => exact hs.content k e hk
      | some e' =>
        rcases h k e' hsel with hnone | hsome
        · exact absurd (hk.symm.trans hnone) (Option.some_ne_none e)
        · exact hsome.symm.trans hk

variable (cfg) in
/-- Gathering and publishing a selection leaves the layer intact exactly where the record names none of the experts
lost. -/
theorem gathered_intact_iff {sel : Fin S → Option (Fin E)} (hs : s.HoldAccurate)
    (hinj : ∀ k k' e, sel k = some e → sel k' = some e → k = k') :
    Intact cfg (some (publish cfg { s with sel := sel, content := fun k => (sel k).or (s.content k) })) ↔
      ∀ k e, sel k = some e → s.hold k = none ∨ s.hold k = some e := by
  have hiff : (publish cfg { s with sel := sel, content := fun k => (sel k).or (s.content k) }).HoldAccurate ↔
      ∀ k e, sel k = some e → s.hold k = none ∨ s.hold k = some e := holdAccurate_overwrite_iff hs rfl fun _ => rfl
  refine ⟨fun h => hiff.mp h.1, fun h => ⟨hiff.mpr h, fun _ => publish_honest hinj fun k e hk => ?_⟩⟩
  exact Option.or_eq_some_iff.mpr (.inl hk)

/-- **The unfused path** keeps the record accurate exactly when it overwrites nothing the record names. -/
theorem pfIssue_intact_iff (hs : Intact cfg (some s)) :
    Intact cfg (s.pfIssue cfg i) ↔ KeepsRecord cfg (some s) (.plain i) := by
  unfold pfIssue
  by_cases hselect : cfg.flags.select = true
  swap
  · rw [if_pos hselect]
    exact ⟨fun _ h => absurd h hselect, fun _ => hs⟩
  rw [if_neg (not_not.mpr hselect)]
  by_cases hfew : E < S
  · rw [if_pos hfew]
    exact ⟨fun _ _ _ h => absurd hfew (not_lt.mpr h), fun _ => trivial⟩
  rw [if_neg hfew]
  by_cases hgather : cfg.flags.gather = true
  swap
  · dsimp only
    rw [if_pos hgather]
    exact ⟨fun _ _ h => absurd h hgather, fun _ => ⟨⟨hs.1.distinct, hs.1.content⟩, fun h => absurd h hgather⟩⟩
  dsimp only
  rw [if_neg (not_not.mpr hgather)]
  cases hstream : streamExperts i.mapped { s with sel := i.selected cfg } with
  | none =>
    obtain ⟨k, e, hk, he⟩ := streamExperts_eq_none_iff.mp hstream
    exact ⟨fun _ _ _ _ hmapped => absurd (hmapped k e (selected_eq_some_iff.mp hk)) he, fun _ => trivial⟩
  | some s₁ =>
    have hmapped : ∀ (k : Fin S) e, i.Takes cfg S k e → e ∈ i.mapped := by
      intro k e hk
      by_contra he
      exact Option.some_ne_none s₁
        (hstream.symm.trans (streamExperts_eq_none_iff.mpr ⟨k, e, selected_eq_some_iff.mpr hk, he⟩))
    obtain rfl := streamExperts_eq_some hstream
    have hinj : ∀ (k k' : Fin S) e, i.selected cfg k = some e → i.selected cfg k' = some e → k = k' :=
      fun k k' e hk hk' => Fin.ext ((selected_eq_some_iff.mp hk).1.symm.trans (selected_eq_some_iff.mp hk').1)
    have hiff := gathered_intact_iff cfg hs.1 hinj
    refine hiff.trans ⟨fun h _ _ _ _ k e hk => h k e (selected_eq_some_iff.mpr hk), fun h k e hk => ?_⟩
    exact h hselect hgather (not_lt.mp hfew) hmapped k e (selected_eq_some_iff.mp hk)

variable [Field α] [LinearOrder α]

/-- **The fused path** in mode 2 keeps it accurate whatever it is asked. -/
theorem pfIssueFused_intact (hs : Intact cfg (some s)) : Intact cfg (s.pfIssueFused cfg c) := by
  unfold pfIssueFused
  by_cases hselect : cfg.flags.select = true
  swap
  · rw [if_pos hselect]
    exact hs
  rw [if_neg (not_not.mpr hselect)]
  by_cases hgather : cfg.flags.gather = true
  · rw [if_neg (not_not.mpr hgather)]
    cases h : predStep cfg.sigmoid (some s) (kernelArgs cfg c) with
    | none => trivial
    | some s' => exact ⟨hs.1.step h, fun _ => hs.1.honest h⟩
  · rw [if_pos hgather]
    cases h : s.predFused cfg.sigmoid .off (kernelArgs cfg c) with
    | none => trivial
    | some s' =>
      obtain ⟨hcontent, w, hw⟩ := predFused_reports h
      have hhold : s'.hold = s.hold := hw.hold
      refine ⟨⟨?_, ?_⟩, fun h => absurd h hgather⟩
      · rw [hhold]
        exact hs.1.distinct
      · rw [hhold, hcontent]
        exact hs.1.content

theorem issue_intact_iff (s : Option (LandingSlots E S)) (ev : HoldIssue E α) (hs : Intact cfg s) :
    Intact cfg (issue cfg s ev) ↔ KeepsRecord cfg s ev := by
  cases s with
  | none => exact ⟨fun _ => trivial, fun _ => trivial⟩
  | some s =>
    cases ev with
    | plain i => exact pfIssue_intact_iff hs
    | fused c => exact ⟨fun _ => trivial, fun _ => pfIssueFused_intact hs⟩

end Issue

section Runs

theorem boot_intact (cfg : PfConfig E α) : Intact cfg (some (boot E S)) := by
  refine ⟨boot_holdAccurate, fun _ e he => ?_⟩
  exact absurd he (by simp [boot])

variable [Field α] [LinearOrder α]

/-- **The record and both paths.** From boot, in every run that mixes the unfused path and the fused one in mode 2, the
record stays accurate and what is reported as landed is where the index says exactly when no unfused prediction copies
an expert into a slot whose entry names another. -/
theorem pfIssues_intact_iff (cfg : PfConfig E α) (evs : List (HoldIssue E α)) :
    StatesHold (issue cfg) (Intact cfg) (some (boot E S)) evs ↔
      StepsMeet (issue cfg) (KeepsRecord cfg) (some (boot E S)) evs :=
  statesHold_iff_stepsMeet (I := fun _ => True) (fun _ _ _ _ _ => trivial) (fun s ev _ => issue_intact_iff s ev) trivial
    (boot_intact cfg) evs

end Runs

/-- One landing slot behind six residents, all switches at their defaults. -/
def oneSlot : PfConfig 256 ℚ where
  flags := {}
  topk := Argsort.stable
  sigmoid _ := 1 / 2
  slotBase := 6

/-- The fused path asked for expert 0: one token, all logits 0, the bias in favour of 0. -/
def wantsZero : PredCall 256 ℚ where
  logits := [fun _ => ((0 : ℚ) : WithBot ℚ)]
  bias e := if e = 0 then ((1 : ℚ) : WithBot ℚ) else ((0 : ℚ) : WithBot ℚ)
  resident := Finset.univ.filter fun e => 250 ≤ e.val
  topk := 8
  topP := 1
  slotBase := 6
  selective := true
  route := true
  cpuskip := true
  mapped := Finset.univ

/-- Expert 0 is fetched, the unfused path writes expert 1 over it, and the next call for 0 keeps the slot: 0 is
reported there, with the weights of 1. -/
def overwritten : List (HoldIssue 256 ℚ) :=
  [.fused wantsZero, .plain ⟨[1], Finset.univ.filter fun e => 250 ≤ e.val, Finset.univ⟩, .fused wantsZero]

set_option maxRecDepth 20000 in
/-- The run does not end, and what it leaves. -/
theorem overwritten_last : (overwritten.foldl (issue oneSlot) (some (boot 256 1))).any fun s =>
    0 ∈ s.landed ∧ s.index 0 = 6 ∧ s.content 0 = some 1 := by
  decide +kernel

set_option maxRecDepth 20000 in
theorem overwritten_misreports : ¬ StatesHold (issue oneSlot) (Intact oneSlot) (some (boot 256 1)) overwritten := by
  intro h
  obtain ⟨s, hs, hfacts⟩ := (Option.any_eq_true _ _).mp overwritten_last
  obtain ⟨hlanded, hindex, hcontent⟩ := of_decide_eq_true hfacts
  have hlast := StatesHold.last h
  rw [hs] at hlast
  obtain ⟨k, -, hk⟩ := hlast.2 rfl 0 (Finset.mem_union_left _ hlanded)
  rw [Subsingleton.elim k 0, hcontent] at hk
  exact absurd hk (by decide)

end LandingSlots

end ExpertServe
