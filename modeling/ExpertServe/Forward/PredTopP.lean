import ExpertServe.Forward.HoldRecord
import ExpertServe.Lib.TopSum
import Mathlib.Algebra.Order.Field.Basic
import Mathlib.Tactic.NormNum
import Mathlib.Tactic.Positivity

/-!
# The fused predictor and the path it replaces

`_kt_pred_topP` scores the lookahead rows by torch operations and `pf_issue` selects from what it predicts. The kernel
does both in one launch. `torch.topk` orders equal values as it likes; the kernel puts lower ids first.

* `Lookahead.predTopP`: the prediction by torch operations, for any order of ties;
* `LandingSlots.pfIssueFusedAt`: the fused path with the kernel in any of its modes;
* `predictRow_eq_predTopP`: the kernel predicts what the torch operations do with lower ids first;
* `pfIssue_agrees_fused`: in modes 0 and 1 the two paths agree up to the order of ties and the slots.
-/

namespace ExpertServe

open Lib

variable {E S : ℕ} {α : Type*}

/-! ## The two paths -/

/-- What either path is given for a layer. -/
structure Lookahead (E : ℕ) (α : Type*) where
  logits : List (Fin E → α)
  bias : Fin E → α
  resident : Finset (Fin E)
  topk : ℕ
  topP : ℕ
  /-- The experts with a row in the pointer table that is not zero. -/
  mapped : Finset (Fin E)

/-- How `torch.topk` orders equal choices, and equal weights. -/
structure TieRule (E : ℕ) (α : Type*) [LE α] where
  choice : Argsort (Fin E) α
  weight : Argsort (Fin E) α

/-- Lower ids first, and among the picks the first pick. -/
def TieRule.lowerFirst [LinearOrder α] : TieRule E α where
  choice := Argsort.stable
  weight := Argsort.stable

namespace Lookahead

section Torch

variable [Field α] [LinearOrder α] (cfg : PfConfig E α) (ties : TieRule E α) (la : Lookahead E α) (row : Fin E → α)

/-- `scores = torch.sigmoid(logits)`. -/
def scores (e : Fin E) : α := cfg.sigmoid (row e)

/-- `choice = scores + bias`. -/
def choice (e : Fin E) : α := scores cfg row e + la.bias e

/-- `ids`, the router's picks. -/
def ids : List (Fin E) := (ties.choice.order (la.choice cfg row)).take la.topk

/-- `w`, renormalised over the picks. -/
def w (e : Fin E) : α := scores cfg row e / max ((la.ids cfg ties row).map (scores cfg row)).sum (eMinus 9)

/-- The picks, largest weight first. -/
def ranked : List (Fin E) := ties.weight.desc (la.w cfg ties row) (la.ids cfg ties row)

/-- `_kt_pred_topP` for one token. -/
def predTopP : List (Fin E) := (la.ranked cfg ties row).take (min la.topP la.topk)

/-- What `pf_issue` is called with. -/
def plain : PlainIssue E where
  predictedIds := la.logits.flatMap (la.predTopP cfg ties)
  resident := la.resident
  mapped := la.mapped

/-- What `pf_issue_fused` is called with. -/
def call : PredCall E α where
  logits := la.logits.map fun row e => (row e : WithBot α)
  bias e := (la.bias e : WithBot α)
  resident := la.resident
  topk := la.topk
  topP := la.topP
  slotBase := cfg.slotBase
  selective := cfg.flags.selective
  route := cfg.flags.routes
  cpuskip := cfg.flags.cpuskip
  mapped := la.mapped

/-- For each token as many choices as the router picks exceed the value a pick of the kernel has to exceed. -/
def Exceeds : Prop :=
  ∀ row ∈ la.logits, la.topk ≤ (Finset.univ.filter fun e => -1e30 < la.choice cfg row e).card

/-- Equals are ordered with lower ids first, or none are cut apart: where the router cuts its choices, and where the
prediction cuts their weights. -/
def CutsAlike : Prop :=
  ∀ row ∈ la.logits,
    CutAlike (la.choice cfg row) la.topk (ties.choice.order (la.choice cfg row))
      (Argsort.stable.order (la.choice cfg row)) ∧
    CutAlike (la.w cfg ties row) (min la.topP la.topk) (la.ranked cfg ties row) (la.ranked cfg .lowerFirst row)

end Torch

end Lookahead

namespace LandingSlots

/-- What the two paths leave agrees up to the slots the experts are in. -/
structure SameLanding (cfg : PfConfig E α) (r s : LandingSlots E S) : Prop where
  sel : ∀ e, (∃ k, r.sel k = some e) ↔ ∃ k, s.sel k = some e
  landed : r.landed = s.landed
  landedCpu : r.landedCpu = s.landedCpu
  /-- In either the slot an expert's index names holds what was gathered from it. -/
  honest : r.Honest cfg ∧ s.Honest cfg

variable [Field α] [LinearOrder α]

/-- `pf_issue_fused` with the kernel in the mode `reuse`; without the gather the mode is 0. -/
def pfIssueFusedAt (cfg : PfConfig E α) (reuse : Reuse) (c : PredCall E α) (s : LandingSlots E S) :
    Option (LandingSlots E S) :=
  if ¬ cfg.flags.select then some s
  else if ¬ cfg.flags.gather then s.predFused cfg.sigmoid .off (kernelArgs cfg c)
  else (s.predFused cfg.sigmoid reuse (kernelArgs cfg c)).bind (streamExperts (kernelArgs cfg c).mapped)

/-- Mode 2 of it. -/
theorem pfIssueFusedAt_act (cfg : PfConfig E α) (c : PredCall E α) (s : LandingSlots E S) :
    s.pfIssueFusedAt cfg .act c = s.pfIssueFused cfg c := rfl

/-- What the two paths select from one prediction, whatever the order of ties. -/
structure SameRule (cfg : PfConfig E α) (reuse : Reuse) (i : PlainIssue E) (c : PredCall E α) (s : LandingSlots E S) :
    Prop where
  demand : pfDemand i.resident i.predictedIds = c.demand cfg.sigmoid
  /-- The same number of experts is wanted. -/
  nWant : nWant (pfDemand i.resident i.predictedIds) = nWant (c.demand cfg.sigmoid)
  /-- The same demands are selected. -/
  selected : ((landings (i.selected cfg (S := S))).map fun p => c.demand cfg.sigmoid p.2).Perm
    ((landings (s.listed cfg.sigmoid reuse c)).map fun p => c.demand cfg.sigmoid p.2)
  /-- A resident is not selected. -/
  resident : (∀ (k : Fin S) e, i.selected cfg k = some e → e ∉ i.resident) ∧
    ∀ k e, s.listed cfg.sigmoid reuse c k = some e → e ∉ c.resident
  /-- A hole is, and then the gather faults. -/
  hole : (s.pfIssue cfg i = none ↔ ∃ (k : Fin S) (e : Fin E), i.selected cfg k = some e ∧ e ∉ i.mapped) ∧
    (s.pfIssueFusedAt cfg reuse c = none ↔ ∃ k e, s.listed cfg.sigmoid reuse c k = some e ∧ e ∉ c.mapped)

end LandingSlots

/-! ## The prediction -/

namespace Lookahead

section Prediction

variable [Field α] [LinearOrder α] {cfg : PfConfig E α} {ties : TieRule E α} {la : Lookahead E α} {row : Fin E → α}
  {e : Fin E}

theorem nodup_ids : (la.ids cfg ties row).Nodup :=
  (ties.choice.nodup_order _).sublist (List.take_sublist _ _)

/-- Weights order the picks as scores do. -/
theorem w_le_iff [IsStrictOrderedRing α] (i j : Fin E) :
    la.w cfg ties row i ≤ la.w cfg ties row j ↔ scores cfg row i ≤ scores cfg row j := by
  have hpos : 0 < max ((la.ids cfg ties row).map (scores cfg row)).sum (eMinus 9) :=
    lt_max_of_lt_right (eMinus_pos 9)
  exact div_le_div_iff_of_pos_right hpos

/-- The first picks exceed a bound that as many choices exceed. -/
theorem lt_choice_of_mem_ids {t : α} (h : la.topk ≤ (Finset.univ.filter fun e => t < la.choice cfg row e).card)
    (he : e ∈ la.ids cfg ties row) : t < la.choice cfg row e := by
  have hrank : ties.choice.rank (la.choice cfg row) e < la.topk :=
    (List.mem_take_iff_idxOf_lt (ties.choice.mem_order _ e)).mp he
  exact (ties.choice.rank_lt_card_iff _ t e).mp (hrank.trans_le h)

/-- **The kernel's prediction** for a token is that of the torch operations with lower ids first. -/
theorem predictRow_eq_predTopP [IsStrictOrderedRing α] (hsigmoid : ∀ x, 0 ≤ cfg.sigmoid x) (htopk : la.topk ≤ 64)
    (h : la.topk ≤ (Finset.univ.filter fun e => -1e30 < la.choice cfg row e).card) :
    (la.call cfg).predictRow cfg.sigmoid (fun e => (row e : WithBot α)) = la.predTopP cfg .lowerFirst row := by
  have hneg : (-1e30 : α) < 0 := neg_lt_zero.mpr (by positivity)
  have hchoice : (Argsort.stable : Argsort (Fin E) (WithBot α)).order
      (fun e => ((la.choice cfg row e : α) : WithBot α)) = Argsort.stable.order (la.choice cfg row) :=
    Argsort.stable_desc_congr (fun _ _ => WithBot.coe_le_coe) _
  have hpicks : ((la.ids cfg .lowerFirst row).filter fun e => (unpicked : WithBot α) < (la.choice cfg row e : α)) =
      la.ids cfg .lowerFirst row := by
    rw [List.filter_eq_self]
    intro e he
    exact decide_eq_true (WithBot.coe_lt_coe.mpr (lt_choice_of_mem_ids h he))
  have hranked : (Argsort.stable : Argsort (Fin E) (WithBot α)).desc (fun e => ((scores cfg row e : α) : WithBot α))
      (la.ids cfg .lowerFirst row) = la.ranked cfg .lowerFirst row :=
    Argsort.stable_desc_congr (fun i j => WithBot.coe_le_coe.trans (w_le_iff i j).symm) _
  have hK : min la.topk 64 = la.topk := min_eq_left htopk
  show ((Argsort.stable.desc (fun e => ((scores cfg row e : α) : WithBot α)) (((Argsort.stable.order
    fun e => ((la.choice cfg row e : α) : WithBot α)).take (min la.topk 64)).filter _)).take
      (min la.topP (min la.topk 64))).filter _ = _
  rw [hK, hchoice]
  show ((Argsort.stable.desc (fun e => ((scores cfg row e : α) : WithBot α)) ((la.ids cfg .lowerFirst row).filter
    fun e => (unpicked : WithBot α) < (la.choice cfg row e : α))).take _).filter _ = _
  rw [hpicks, hranked, List.filter_eq_self.mpr]
  · rfl
  · intro e _
    exact decide_eq_true (WithBot.coe_lt_coe.mpr (hneg.trans_le (hsigmoid (row e))))

/-- Where no tie is cut apart the same experts are predicted. -/
theorem predTopP_perm [IsStrictOrderedRing α]
    (hchoice : CutAlike (la.choice cfg row) la.topk (ties.choice.order (la.choice cfg row))
      (Argsort.stable.order (la.choice cfg row)))
    (hweight : CutAlike (la.w cfg ties row) (min la.topP la.topk) (la.ranked cfg ties row)
      (la.ranked cfg .lowerFirst row)) :
    (la.predTopP cfg ties row).Perm (la.predTopP cfg .lowerFirst row) := by
  have hids : (la.ids cfg ties row).Perm (la.ids cfg .lowerFirst row) := by
    refine hchoice.take_perm ?_ (ties.choice.nodup_order _) (ties.choice.order_sorted _) (Argsort.stable.order_sorted _)
    exact (ties.choice.order_perm _).trans (Argsort.stable.order_perm _).symm
  have hranked : (la.ranked cfg ties row).Perm (la.ranked cfg .lowerFirst row) :=
    ((ties.weight.desc_perm _ _).trans hids).trans (Argsort.stable.desc_perm _ _).symm
  refine hweight.take_perm hranked (ties.weight.nodup_desc nodup_ids) (ties.weight.desc_sorted _ _) ?_
  refine (Argsort.stable.desc_sorted _ _).imp fun hle => ?_
  exact (w_le_iff _ _).mpr ((w_le_iff _ _).mp hle)

/-- **The demand** is the same. -/
theorem demand_eq [IsStrictOrderedRing α] (hsigmoid : ∀ x, 0 ≤ cfg.sigmoid x) (htopk : la.topk ≤ 64)
    (hexceeds : la.Exceeds cfg) (hties : la.CutsAlike cfg ties) :
    pfDemand (la.plain cfg ties).resident (la.plain cfg ties).predictedIds = (la.call cfg).demand cfg.sigmoid := by
  have hids : (la.plain cfg ties).predictedIds.Perm ((la.call cfg).predictedIds cfg.sigmoid) := by
    show (la.logits.flatMap (la.predTopP cfg ties)).Perm
      ((la.logits.map fun row e => (row e : WithBot α)).flatMap ((la.call cfg).predictRow cfg.sigmoid))
    rw [List.flatMap_map]
    refine List.Perm.flatMap_left _ fun row hrow => ?_
    rw [predictRow_eq_predTopP hsigmoid htopk (hexceeds row hrow)]
    exact predTopP_perm (hties row hrow).1 (hties row hrow).2
  funext e
  show (if e ∈ la.resident then 0 else _) = if e ∈ la.resident then 0 else _
  rw [hids.count_eq]

end Prediction

end Lookahead

/-! ## The selection -/

section Selection

variable {fl : PrefetchFlags} {resident : Finset (Fin E)} {ids : List (Fin E)} {e : Fin E} {place : Fin S → ℕ}

/-- The demand that is selected at a place does not depend on the order of ties. -/
theorem pick_map (srt : Argsort (Fin E) ℕ) (demand : Fin E → ℕ) (p : ℕ) :
    (pick fl S (srt.order demand) demand p).map demand =
      (sortDesc demand)[p]?.filter fun v => 0 < v ∧ ¬ (fl.selective ∧ S < nWant demand) := by
  unfold pick
  rw [← sortDesc_eq srt, List.getElem?_map]
  cases (srt.order demand)[p]? with
  | none => rfl
  | some e =>
    rw [Option.map_some, Option.filter_some, Option.filter_some]
    split
    · rfl
    · rfl

theorem landings_map {β : Type*} (sel : Fin S → Option (Fin E)) (g : Fin E → β) :
    (landings sel).map (fun p => g p.2) = (List.finRange S).filterMap fun k => (sel k).map g := by
  unfold landings
  rw [List.map_filterMap]
  congr 1
  funext k
  rw [Option.map_map]
  rfl

/-- Nor does the order of the slots matter to the demands selected. -/
theorem picked_perm (srt : Argsort (Fin E) ℕ) (demand : Fin E → ℕ) (hinj : Function.Injective place)
    (hlt : ∀ k, place k < S) :
    ((landings fun k => pick fl S (srt.order demand) demand (place k)).map fun p => demand p.2).Perm
      ((List.range S).filterMap fun p =>
        (sortDesc demand)[p]?.filter fun v => 0 < v ∧ ¬ (fl.selective ∧ S < nWant demand)) := by
  have hplaces : ((List.finRange S).map place).Perm (List.range S) := by
    have hsub : (List.finRange S).map place ⊆ List.range S := by
      intro p hp
      obtain ⟨k, -, rfl⟩ := List.mem_map.mp hp
      exact List.mem_range.mpr (hlt k)
    exact (((List.nodup_finRange S).map hinj).subperm hsub).perm_of_length_le (by simp)
  rw [landings_map]
  simp only [pick_map]
  have hcomp := hplaces.filterMap fun p =>
    (sortDesc demand)[p]?.filter fun v => 0 < v ∧ ¬ (fl.selective ∧ S < nWant demand)
  rwa [List.filterMap_map] at hcomp

/-- Which experts some slot picks. -/
theorem exists_pick_iff (srt : Argsort (Fin E) ℕ) (hlt : ∀ k, place k < S) (hsurj : ∀ p < S, ∃ k, place k = p) :
    (∃ k, pick fl S (srt.order (pfDemand resident ids)) (pfDemand resident ids) (place k) = some e) ↔
      srt.rank (pfDemand resident ids) e < S ∧ e ∈ ids.toFinset \ resident ∧
        ¬ (fl.selective = true ∧ S < (ids.toFinset \ resident).card) := by
  simp only [pick_eq_some_iff]
  constructor
  · rintro ⟨k, hrank, hwanted⟩
    exact ⟨hrank.trans_lt (hlt k), hwanted⟩
  · rintro ⟨hrank, hwanted⟩
    obtain ⟨k, hk⟩ := hsurj _ hrank
    exact ⟨k, hk.symm, hwanted⟩

/-- Where no tie of the demand is cut apart, the same wanted experts come first. -/
theorem rank_lt_iff_of_cutAlike (srt : Argsort (Fin E) ℕ) (hwanted : e ∈ ids.toFinset \ resident)
    (hcut : (ids.toFinset \ resident).card ≤ S ∨ CutAlike (pfDemand resident ids) S
      (srt.order (pfDemand resident ids)) (Argsort.stable.order (pfDemand resident ids))) :
    srt.rank (pfDemand resident ids) e < S ↔ Argsort.stable.rank (pfDemand resident ids) e < S := by
  rcases hcut with hfit | hcut
  · -- all that is wanted comes first
    have hfirst : ∀ srt : Argsort (Fin E) ℕ, srt.rank (pfDemand resident ids) e < S := fun srt => by
      have hlt := (srt.rank_lt_card_iff (pfDemand resident ids) 0 e).mpr (pfDemand_pos_iff.mpr hwanted)
      exact (hlt.trans_eq nWant_pfDemand).trans_le hfit
    exact iff_of_true (hfirst srt) (hfirst Argsort.stable)
  · have hperm := hcut.take_perm ((srt.order_perm _).trans (Argsort.stable.order_perm _).symm) (srt.nodup_order _)
      (srt.order_sorted _) (Argsort.stable.order_sorted _)
    unfold Argsort.rank
    rw [← List.mem_take_iff_idxOf_lt (srt.mem_order _ e), hperm.mem_iff,
      List.mem_take_iff_idxOf_lt (Argsort.stable.mem_order _ e)]

end Selection

/-! ## The two paths on one layer -/

namespace LandingSlots

section Paths

variable {cfg : PfConfig E α} {s s' r : LandingSlots E S} {i : PlainIssue E} {sel sel' : Fin S → Option (Fin E)}

/-- What a path leaves that has selected `sel`. -/
structure Published (cfg : PfConfig E α) (sel : Fin S → Option (Fin E)) (s : LandingSlots E S) : Prop where
  selected : s.sel = sel
  landed : s.landed = if cfg.flags.routes then ((landings sel).map Prod.snd).toFinset else ∅
  landedCpu : s.landedCpu = if cfg.flags.cpuskip then ((landings sel).map Prod.snd).toFinset else ∅
  honest : s.Honest cfg

/-- Paths that have selected the same experts leave the same. -/
theorem Published.sameLanding (hr : Published cfg sel r) (hs : Published cfg sel' s)
    (hsel : ∀ e, (∃ k, sel k = some e) ↔ ∃ k, sel' k = some e) : SameLanding cfg r s := by
  have hlanded : ((landings sel).map Prod.snd).toFinset = ((landings sel').map Prod.snd).toFinset := by
    ext e
    rw [mem_landed, mem_landed, hsel]
  refine ⟨?_, ?_, ?_, hr.honest, hs.honest⟩
  · rw [hr.selected, hs.selected]
    exact hsel
  · rw [hr.landed, hs.landed, hlanded]
  · rw [hr.landedCpu, hs.landedCpu, hlanded]

theorem pfIssue_eq_none_iff (hselect : cfg.flags.select = true) (hgather : cfg.flags.gather = true) (hE : S ≤ E) :
    s.pfIssue cfg i = none ↔ ∃ (k : Fin S) (e : Fin E), i.selected cfg k = some e ∧ e ∉ i.mapped := by
  unfold pfIssue
  rw [if_neg (not_not.mpr hselect), if_neg (not_lt.mpr hE)]
  dsimp only
  rw [if_neg (not_not.mpr hgather), Option.map_eq_none_iff, streamExperts_eq_none_iff]

/-- What the unfused path leaves. -/
theorem pfIssue_published (hselect : cfg.flags.select = true) (hgather : cfg.flags.gather = true) (hE : S ≤ E)
    (h : s.pfIssue cfg i = some s') : Published cfg (i.selected cfg) s' := by
  unfold pfIssue at h
  rw [if_neg (not_not.mpr hselect), if_neg (not_lt.mpr hE)] at h
  dsimp only at h
  rw [if_neg (not_not.mpr hgather)] at h
  obtain ⟨s₁, hs₁, rfl⟩ := Option.map_eq_some_iff.mp h
  obtain rfl := streamExperts_eq_some hs₁
  refine ⟨rfl, rfl, rfl, publish_honest (fun k k' e hk hk' => ?_) fun k e hk => Option.or_eq_some_iff.mpr (.inl hk)⟩
  exact Fin.ext ((selected_eq_some_iff.mp hk).1.symm.trans (selected_eq_some_iff.mp hk').1)

variable [Field α] [LinearOrder α] {c : PredCall E α} {reuse : Reuse}

theorem pfIssueFusedAt_eq_none_iff (hselect : cfg.flags.select = true) (hgather : cfg.flags.gather = true)
    (hacc : ¬ (kernelArgs cfg c).Rejected S) : s.pfIssueFusedAt cfg reuse c = none ↔
      ∃ k e, s.listed cfg.sigmoid reuse (kernelArgs cfg c) k = some e ∧ e ∉ c.mapped := by
  unfold pfIssueFusedAt
  rw [if_neg (not_not.mpr hselect), if_neg (not_not.mpr hgather)]
  obtain ⟨s₁, hs₁⟩ : ∃ s₁, s.predFused cfg.sigmoid reuse (kernelArgs cfg c) = some s₁ := ⟨_, if_neg hacc⟩
  obtain ⟨-, w, hw⟩ := predFused_reports hs₁
  rw [hs₁, Option.bind_some, streamExperts_eq_none_iff, hw.sel]
  rfl

/-- What the fused path leaves in modes 0 and 1. -/
theorem pfIssueFusedAt_published (hselect : cfg.flags.select = true) (hgather : cfg.flags.gather = true)
    (hreuse : reuse ≠ .act) (h : s.pfIssueFusedAt cfg reuse c = some s') :
    Published cfg (s.listed cfg.sigmoid reuse (kernelArgs cfg c)) s' := by
  unfold pfIssueFusedAt at h
  rw [if_neg (not_not.mpr hselect), if_neg (not_not.mpr hgather)] at h
  obtain ⟨s₁, hs₁, hs'⟩ := Option.bind_eq_some_iff.mp h
  obtain ⟨-, w, hw⟩ := predFused_reports hs₁
  obtain rfl := streamExperts_eq_some hs'
  have hselects := hw.selects
  rw [carries_of_ne_act hreuse] at hselects
  refine ⟨hw.sel, ?_, ?_, fun e he => ?_⟩
  · rw [hselects.toFinset_snd]
    exact hw.landed
  · rw [hselects.toFinset_snd]
    exact hw.landedCpu
  · obtain ⟨k, hk⟩ := (hselects.mem_iff e).mpr (hw.mem_of_landed he)
    refine ⟨k, hw.index k e (by rw [carries_of_ne_act hreuse]; exact hk), Option.or_eq_some_iff.mpr (.inl ?_)⟩
    rw [hw.sel]
    exact hk

variable (s) in
/-- From one demand both paths pick: the unfused one slot by slot, the kernel weakest slot first. -/
theorem selections (hreuse : reuse ≠ .act) (hselective : c.selective = cfg.flags.selective)
    (hdemand : pfDemand i.resident i.predictedIds = c.demand cfg.sigmoid) :
    (i.selected cfg = fun k : Fin S => pick cfg.flags S (cfg.topk.order (c.demand cfg.sigmoid))
      (c.demand cfg.sigmoid) k) ∧
    s.listed cfg.sigmoid reuse c = fun k => pick cfg.flags S (Argsort.stable.order (c.demand cfg.sigmoid))
      (c.demand cfg.sigmoid) ((evictionOrder s.holdScore).idxOf k) := by
  refine ⟨?_, listed_of_ne_act hreuse hselective⟩
  rw [← hdemand]
  rfl

variable (s) in
/-- Where no tie of the demand is cut apart both paths select the same experts. -/
theorem exists_selected_iff (hreuse : reuse ≠ .act) (hselective : c.selective = cfg.flags.selective)
    (hdemand : pfDemand i.resident i.predictedIds = c.demand cfg.sigmoid)
    (hcut : cfg.flags.selective = true ∨ nWant (c.demand cfg.sigmoid) ≤ S ∨ CutAlike (c.demand cfg.sigmoid) S
      (cfg.topk.order (c.demand cfg.sigmoid)) (Argsort.stable.order (c.demand cfg.sigmoid))) (e : Fin E) :
    (∃ k : Fin S, i.selected cfg k = some e) ↔ ∃ k, s.listed cfg.sigmoid reuse c k = some e := by
  obtain ⟨hplain, hfused⟩ := selections s hreuse hselective hdemand
  obtain ⟨-, hsurj⟩ := evictionOrder_places s.holdScore
  rw [hplain, hfused]
  refine (exists_pick_iff cfg.topk Fin.isLt fun p hp => ⟨⟨p, hp⟩, rfl⟩).trans
    (Iff.trans ?_ (exists_pick_iff Argsort.stable (idxOf_evictionOrder_lt s.holdScore) hsurj).symm)
  refine and_congr_left fun ⟨hwanted, hskip⟩ => rank_lt_iff_of_cutAlike cfg.topk hwanted ?_
  rcases hcut with hselective | hfit | hcut
  · exact Or.inl (not_lt.mp fun hmany => hskip ⟨hselective, hmany⟩)
  · exact Or.inl (nWant_pfDemand.symm.trans_le hfit)
  · exact Or.inr hcut

/-- **The fused predictor and the path it replaces.** On one layer and one lookahead, with as many choices above the
kernel's bound as the router picks, and no tie of the router cut apart other than by the lower id: the two paths want
the same number of experts, select the same demands, pass over residents and fault on holes. Where the ties of the
demand are cut apart no other way either (in selective mode none is), they land the same experts, each at its index. -/
theorem pfIssue_agrees_fused [IsStrictOrderedRing α] (cfg : PfConfig E α) (ties : TieRule E α) (la : Lookahead E α)
    (s : LandingSlots E S) (hreuse : reuse ≠ .act) (hsigmoid : ∀ x, 0 ≤ cfg.sigmoid x)
    (hselect : cfg.flags.select = true) (hgather : cfg.flags.gather = true) (hacc : ¬ (la.call cfg).Rejected S)
    (hexceeds : la.Exceeds cfg) (hties : la.CutsAlike cfg ties) :
    s.SameRule cfg reuse (la.plain cfg ties) (la.call cfg) ∧
      (cfg.flags.selective = true ∨ nWant ((la.call cfg).demand cfg.sigmoid) ≤ S ∨
          CutAlike ((la.call cfg).demand cfg.sigmoid) S (cfg.topk.order ((la.call cfg).demand cfg.sigmoid))
            (Argsort.stable.order ((la.call cfg).demand cfg.sigmoid)) →
        Option.Rel (SameLanding cfg) (s.pfIssue cfg (la.plain cfg ties))
          (s.pfIssueFusedAt cfg reuse (la.call cfg))) := by
  have hE : S ≤ E := by
    unfold PredCall.Rejected at hacc
    omega
  have htopk : la.topk ≤ 64 := not_lt.mp fun h => hacc (Or.inr (Or.inr (Or.inr h)))
  have hdemand := Lookahead.demand_eq hsigmoid htopk hexceeds hties
  obtain ⟨hplain, hfused⟩ := selections s hreuse rfl hdemand
  obtain ⟨hinj, -⟩ := evictionOrder_places s.holdScore
  have hplainNone : s.pfIssue cfg (la.plain cfg ties) = none ↔ _ := pfIssue_eq_none_iff hselect hgather hE
  have hfusedNone : s.pfIssueFusedAt cfg reuse (la.call cfg) = none ↔ _ :=
    pfIssueFusedAt_eq_none_iff hselect hgather hacc
  refine ⟨⟨hdemand, congrArg nWant hdemand, ?_, ⟨fun k e hk => ?_, fun k e hk => ?_⟩, hplainNone, hfusedNone⟩,
    fun hcut => ?_⟩
  · rw [hplain, hfused]
    exact (picked_perm _ _ Fin.val_injective Fin.isLt).trans
      (picked_perm _ _ hinj (idxOf_evictionOrder_lt s.holdScore)).symm
  · exact (Finset.mem_sdiff.mp (selected_eq_some_iff.mp hk).2.1).2
  · rw [hfused] at hk
    exact (Finset.mem_sdiff.mp ((pick_eq_some_iff Argsort.stable).mp hk).2.1).2
  · have hsame := exists_selected_iff s hreuse rfl hdemand hcut
    cases hr : s.pfIssue cfg (la.plain cfg ties) with
    | none =>
      obtain ⟨k, e, hk, hmapped⟩ := hplainNone.mp hr
      obtain ⟨k', hk'⟩ := (hsame e).mp ⟨k, hk⟩
      rw [hfusedNone.mpr ⟨k', e, hk', hmapped⟩]
      exact Option.Rel.none
    | some r =>
      cases hs : s.pfIssueFusedAt cfg reuse (la.call cfg) with
      | none =>
        obtain ⟨k, e, hk, hmapped⟩ := hfusedNone.mp hs
        obtain ⟨k', hk'⟩ := (hsame e).mpr ⟨k, hk⟩
        exact absurd (hr.symm.trans (hplainNone.mpr ⟨k', e, hk', hmapped⟩)) (Option.some_ne_none r)
      | some s' =>
        exact Option.Rel.some ((pfIssue_published hselect hgather hE hr).sameLanding
          (pfIssueFusedAt_published hselect hgather hreuse hs) hsame)

end Paths

/-- One token, all logits 0, the bias in favour of expert 0. -/
def zeroAhead (bias : ℚ) : Lookahead 256 ℚ where
  logits := [fun _ => 0]
  bias e := if e.val = 0 then bias + 1 else bias
  resident := Finset.univ.filter fun e => 250 ≤ e.val
  topk := 8
  topP := 1
  mapped := Finset.univ

theorem pfIssue_agrees_fused_zero :
    (boot 256 1).SameRule oneSlot .measure ((zeroAhead 0).plain oneSlot .lowerFirst) ((zeroAhead 0).call oneSlot) ∧
      Option.Rel (SameLanding oneSlot) ((boot 256 1).pfIssue oneSlot ((zeroAhead 0).plain oneSlot .lowerFirst))
        ((boot 256 1).pfIssueFusedAt oneSlot .measure ((zeroAhead 0).call oneSlot)) := by
  have hsigmoid : ∀ x, 0 ≤ oneSlot.sigmoid x := fun _ => by
    show (0 : ℚ) ≤ 1 / 2
    norm_num
  have hexceeds : (zeroAhead 0).Exceeds oneSlot := by
    intro row _
    rw [Finset.filter_true_of_mem, Finset.card_fin]
    · decide
    · intro e _
      show (-1e30 : ℚ) < 1 / 2 + if e.val = 0 then 0 + 1 else 0
      split
      · norm_num
      · norm_num
  have h := pfIssue_agrees_fused oneSlot .lowerFirst (zeroAhead 0) (boot 256 1) (show Reuse.measure ≠ .act by decide)
    hsigmoid rfl rfl (by decide) hexceeds fun _ _ => ⟨Or.inl rfl, Or.inl rfl⟩
  exact ⟨h.1, h.2 (Or.inl rfl)⟩

/-- `oneSlot` without the gather. -/
def timingProbe : PfConfig 256 ℚ := { oneSlot with flags := { gather := false } }

set_option maxRecDepth 20000 in
/-- More slots than the kernel takes, choices at most its bound, and no gather: in none of these do the paths agree. -/
theorem pfIssue_differs_fused :
    (((boot 256 17).pfIssue oneSlot ((zeroAhead 0).plain oneSlot .lowerFirst)).isSome ∧
      (boot 256 17).pfIssueFusedAt oneSlot .measure ((zeroAhead 0).call oneSlot) = none) ∧
    (nWant (pfDemand (zeroAhead (-2 * 10 ^ 30)).resident
        ((zeroAhead (-2 * 10 ^ 30)).plain oneSlot .lowerFirst).predictedIds) = 1 ∧
      nWant (((zeroAhead (-2 * 10 ^ 30)).call oneSlot).demand oneSlot.sigmoid) = 0) ∧
    (((boot 256 1).pfIssue timingProbe ((zeroAhead 0).plain timingProbe .lowerFirst)).map fun s => s.landed) =
      some ∅ ∧
    (((boot 256 1).pfIssueFusedAt timingProbe .measure ((zeroAhead 0).call timingProbe)).map fun s => s.landed) =
      some {0} := by
  refine ⟨⟨?_, Option.isNone_iff_eq_none.mp ?_⟩, ⟨?_, ?_⟩, ?_, ?_⟩
  · -- every expert has its rows: the gather meets no zero row
    apply Option.isSome_iff_ne_none.mpr
    intro hnone
    obtain ⟨_, e, -, he⟩ := (pfIssue_eq_none_iff rfl rfl (by decide)).mp hnone
    exact he (Finset.mem_univ e)
  all_goals decide +kernel

end LandingSlots

end ExpertServe
