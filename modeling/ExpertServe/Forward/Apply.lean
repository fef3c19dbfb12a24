import ExpertServe.Forward.Prefetch
import ExpertServe.Tick.Homes

/-!
# Forwards through a layer

A forward issues predictions for a layer and then runs its `apply`: the prediction flag is latched and cleared,
a large batch falls back to the full-GPU context, and otherwise each routed id goes to the GPU through the
effective tables and to the CPU through the skip mask. Between forwards the adaptive tick may change the GPU set.
An exception ends the process.

* `Layer.apply`: the weights each routed id is multiplied with;
* `Layer.Ok`: what holds of a layer between forwards;
* `forwards_computeOnce`: along a run every routed id is computed once, with its own weights, exactly when no
  forward routes an expert that a prediction covered on a layer without GPU experts.
-/

namespace ExpertServe

open Lib

variable {E S : ℕ} {α : Type*} [Field α] [LinearOrder α]

/-- What a layer is served with. -/
structure Serving (E : ℕ) (α : Type*) [Field α] [LinearOrder α] where
  env : Env α
  flags : PrefetchFlags
  /-- `_KT_ADAPTIVE_ENABLED`. -/
  adaptive : Bool
  /-- `pf_build_table` built the pointer table. -/
  table : Bool
  gpuPrefillTokenThreshold : ℤ
  srt : Argsort (Fin E) α
  topk : Argsort (Fin E) ℕ
  cpu : CpuKernel E

/-- A forward as one layer sees it: the predictions made for it, the size of the batch, the routed ids. -/
structure Pass (E : ℕ) where
  issues : List (Issue E)
  numTokens : ℕ
  topkIds : List (Fin E)

/-- The batch is large enough for the full-GPU context. -/
def Serving.FallsBack (c : Serving E α) (p : Pass E) : Prop :=
  0 < c.gpuPrefillTokenThreshold ∧ c.gpuPrefillTokenThreshold ≤ p.numTokens

instance (c : Serving E α) (p : Pass E) : Decidable (c.FallsBack p) := inferInstanceAs (Decidable (_ ∧ _))

namespace Layer

/-- Whether `apply` reads what a prediction published: `_pf_use_now` on an active layer. -/
def readsLanded (c : Serving E α) (l : Layer E S) : Bool :=
  decide (0 < S) && c.table && (l.pfIssued || !c.flags.fresh)

/-- `_submit_with_staged_input`: a landed expert is submitted as -1. -/
def submittedId (c : Serving E α) (l : Layer E S) (e : Fin E) : ℤ :=
  if l.readsLanded c ∧ e ∈ l.pfLandedCpu then -1 else e

def pfEffMask (c : Serving E α) (l : Layer E S) : Finset (Fin E) :=
  if l.readsLanded c then l.method.gpuExpertsMaskCuda ∪ l.pfLanded else l.method.gpuExpertsMaskCuda

def pfEffIndex (c : Serving E α) (l : Layer E S) (e : Fin E) : ℤ :=
  if l.readsLanded c ∧ e ∈ l.pfLanded then l.pfIndex e else l.method.logicalToGpuIndexCuda e

/-- The weights the GPU side multiplies a routed id with; a layer without GPU experts bypasses the GPU. -/
def gpuComputes (c : Serving E α) (l : Layer E S) (e : Fin E) : List (Option (Fin E)) :=
  let slot := maskAndRemapExpertIds (l.pfEffMask c) (l.pfEffIndex c) e
  if l.method.numGpuExperts = 0 then []
  else if 0 ≤ slot then [l.method.slots slot.toNat]
  else []

/-- The weights the CPU side multiplies a routed id with. -/
def cpuComputes (c : Serving E α) (l : Layer E S) (e : Fin E) : List (Option (Fin E)) :=
  match l.method.wrapper with
  | none => []
  | some w =>
    if c.cpu.shouldSkipExpert w.gpuExpertsMask (l.submittedId c e) then [] else [cpuBytes w.staged e]

/-- `apply`: the weights each routed id is multiplied with, and the layer with its flag cleared. -/
def apply (c : Serving E α) (p : Pass E) (l : Layer E S) : (Fin E → List (Option (Fin E))) × Layer E S :=
  (if c.FallsBack p then fun e => [load .w4afp8 l.method.store l.method none e]
    else fun e => l.gpuComputes c e ++ l.cpuComputes c e,
    { l with pfIssued := false })

end Layer

/-- What happens to a layer: a forward, or an adaptive tick with the controller state it meets. -/
inductive LayerEvent (E : ℕ) (α : Type*) [Field α] where
  | forward (p : Pass E)
  | tick (ctl : Ctl α) (ev : AdaptiveEvent E α)

/-- One event; `none` is a process that has ended. -/
def Layer.step (c : Serving E α) : Option (Layer E S) → LayerEvent E α → Option (Layer E S)
  | none, _ => none
  | some l, .forward p => (l.issues c.flags c.topk c.table p.issues).map fun l' => (l'.apply c p).2
  | some l, .tick ctl ev =>
    some { l with
      method := if c.adaptive then (ktAdaptiveUpdateLayer c.env .w4afp8 c.srt ev ctl l.method).2 else l.method }

/-! ## The property, its condition and the invariant -/

/-- The forward reads landed indices only of a prediction made for it, and computes every routed id once, with
the weights of that expert. -/
def Layer.ComputesOnce (c : Serving E α) (l : Layer E S) (p : Pass E) : Prop :=
  ∀ l', l.issues c.flags c.topk c.table p.issues = some l' →
    (l'.readsLanded c = true → ∃ i ∈ p.issues.getLast?, l'.pfLanded ⊆ i.predictedIds.toFinset) ∧
      ∀ e ∈ p.topkIds, (l'.apply c p).1 e = [some e]

/-- The forward does not route an expert to a landing slot the GPU never runs: the layer has GPU experts, or its
prefetch is inert, or the forward falls back or raises, or its prediction covers no routed id. -/
def Layer.RunsLanded (c : Serving E α) (l : Layer E S) (p : Pass E) : Prop :=
  l.method.numGpuExperts ≠ 0 ∨ ¬ (0 < S ∧ c.table = true) ∨ c.FallsBack p ∨ (∃ i ∈ p.issues, i.Rejected S) ∨
    ∀ i ∈ p.issues.getLast?, ∀ e ∈ p.topkIds, e ∉ covered S l.method.gpuExpertsMaskCuda i.predictedIds

/-- A property of forwards, on the events of a run. -/
def OnForwards (P : Layer E S → Pass E → Prop) : Option (Layer E S) → LayerEvent E α → Prop
  | some l, .forward p => P l p
  | _, _ => True

/-- What holds of a layer while it is served, a prediction outstanding or not. -/
structure Layer.Served (c : Serving E α) (n : ℕ) (l : Layer E S) : Prop where
  ok : LayerOk c.env n l.method
  honest : l.method.Honest
  offGpu : l.method.gpuExpertsMaskᶜ ⊆ l.method.store
  all : c.adaptive = true → l.method.store = Finset.univ

/-- What holds of a layer between forwards: no prediction is outstanding. -/
structure Layer.Ok (c : Serving E α) (n : ℕ) (l : Layer E S) : Prop extends Layer.Served c n l where
  idle : l.pfIssued = false

section Served

variable {c : Serving E α} {n : ℕ} {l l' : Layer E S} {e : Fin E} {wanted : Finset (Fin E)}

theorem Layer.Served.card_mask (h : l.Served c n) : l.method.gpuExpertsMask.card = l.method.numGpuExperts := by
  obtain ⟨t, ht, hlen, hnum⟩ := h.ok.seats
  rw [hnum, ← hlen, ht.mask, t.card_residents]

/-- Landing slots are not among those the tables speak about. -/
theorem Layer.Landed.layerOk {m : Method E} (h : Layer.Landed m l wanted) (hm : LayerOk c.env n m) :
    LayerOk c.env n l.method := by
  obtain ⟨slots, heq, -⟩ := h.method
  obtain ⟨t, ht, hlen, hnum⟩ := hm.seats
  rw [heq]
  exact ⟨⟨t, ⟨ht.mask, ht.index, ht.occupants, ht.maskCuda, ht.indexCuda⟩, hlen, hnum⟩,
    ⟨hm.wired.owner, hm.wired.mask⟩, hm.tpRank⟩

theorem Layer.Landed.served (h : Layer.Landed l.method l' wanted) (hl : l.Served c n) : l'.Served c n := by
  have hok : LayerOk c.env n l'.method := h.layerOk hl.ok
  obtain ⟨slots, hm, hslots⟩ := h.method
  obtain ⟨t, ht, hlen, hnum⟩ := hl.ok.seats
  refine ⟨hok, ?_, ?_, ?_⟩
  · rw [hm]
    intro s e hs
    have hlt : s < t.occupants.length := by
      rw [← ht.occupants]
      exact (List.getElem?_eq_some_iff.mp hs).1
    show slots s = some e
    rw [hslots s (by omega)]
    exact hl.honest s e hs
  · rw [hm]
    exact hl.offGpu
  · rw [hm]
    exact hl.all

/-! ## One routed id -/

/-- An expert that did not land is computed by the GPU where it is resident. -/
theorem gpuComputes_resident (hl : l.Served c n) (hout : l.readsLanded c = true → e ∉ l.pfLanded) :
    l.gpuComputes c e = if e ∈ l.method.gpuExpertsMask then [some e] else [] := by
  obtain ⟨t, ht, -, -⟩ := hl.ok.seats
  have hmask : e ∈ l.pfEffMask c ↔ e ∈ l.method.gpuExpertsMask := by
    unfold Layer.pfEffMask
    split
    · next hreads => rw [Finset.mem_union, ht.maskCuda, or_iff_left (hout hreads)]
    · rw [ht.maskCuda]
  have hindex : l.pfEffIndex c e = l.method.logicalToGpuIndex e := by
    unfold Layer.pfEffIndex
    rw [if_neg fun h => hout h.1 h.2, ht.indexCuda]
  unfold Layer.gpuComputes maskAndRemapExpertIds
  dsimp only
  by_cases he : e ∈ l.method.gpuExpertsMask
  · have hnum : l.method.numGpuExperts ≠ 0 := by
      rw [← hl.card_mask]
      exact Finset.card_ne_zero_of_mem he
    have hrow : l.method.slots (l.method.logicalToGpuIndex e).toNat = some e := residentRow_eq ht hl.honest he
    have hnonneg : 0 ≤ l.method.logicalToGpuIndex e := by
      rw [ht.index, Seating.index_nonneg_iff, ← Seating.mem_residents, ← ht.mask]
      exact he
    rw [if_neg hnum, if_pos (hmask.mpr he), hindex, if_pos hnonneg, hrow, if_pos he]
  · have hskip : ¬ (0 : ℤ) ≤ -1 := by decide
    rw [if_neg (hmask.not.mpr he), if_neg hskip, ite_self, if_neg he]

/-- A landed expert is computed by the GPU out of its landing slot, unless the layer bypasses the GPU. -/
theorem gpuComputes_landed {m : Method E} (h : Layer.Landed m l wanted) (hreads : l.readsLanded c = true)
    (he : e ∈ wanted) :
    l.gpuComputes c e = if m.numGpuExperts = 0 then [] else [cpuBytes m.store e] := by
  obtain ⟨hnonneg, hbytes⟩ := h.bytes e he
  obtain ⟨slots, hm, -⟩ := h.method
  have hnum : l.method.numGpuExperts = m.numGpuExperts := by rw [hm]
  have hmem : e ∈ l.pfLanded := by
    rw [h.landed]
    exact he
  have hmask : e ∈ l.pfEffMask c := by
    unfold Layer.pfEffMask
    rw [if_pos hreads]
    exact Finset.mem_union_right _ hmem
  have hindex : l.pfEffIndex c e = l.pfIndex e := if_pos ⟨hreads, hmem⟩
  unfold Layer.gpuComputes maskAndRemapExpertIds
  dsimp only
  rw [if_pos hmask, hindex, if_pos hnonneg, hbytes, hnum]

/-- Without a RAM limit the CPU computes what is submitted and not resident. -/
theorem cpuComputes_eq (htwo : c.env.tierEnabled = false) (hl : l.Served c n) :
    l.cpuComputes c e = if (l.readsLanded c = true ∧ e ∈ l.pfLandedCpu) ∨ e ∈ l.method.gpuExpertsMask then []
      else [cpuBytes l.method.store e] := by
  obtain ⟨w, hw⟩ := Option.isSome_iff_exists.mp (hl.ok.wired.owner.mpr hl.ok.tpRank)
  have hmask : w.gpuExpertsMask = l.method.gpuExpertsMask := by
    rw [hl.ok.wired.mask w hw]
    unfold Method.ktCpuSkipMask
    rw [if_neg (by simp [htwo])]
  have hstore : l.method.store = w.staged := by
    unfold Method.store
    rw [hw]
    rfl
  unfold Layer.cpuComputes Layer.submittedId
  rw [hw, hstore]
  dsimp only
  by_cases hland : l.readsLanded c = true ∧ e ∈ l.pfLandedCpu
  · rw [if_pos hland, c.cpu.skip_neg _ _ (by omega), if_pos rfl, if_pos (Or.inl hland)]
  · rw [if_neg hland, c.cpu.skip_expert, hmask]
    simp [hland]

/-- An expert that did not land is computed once. -/
theorem computes_of_notLanded (htwo : c.env.tierEnabled = false) (hl : l.Served c n)
    (hout : l.readsLanded c = true → e ∉ l.pfLanded ∧ e ∉ l.pfLandedCpu) :
    l.gpuComputes c e ++ l.cpuComputes c e = [some e] := by
  have hland : ¬ (l.readsLanded c = true ∧ e ∈ l.pfLandedCpu) := fun h => (hout h.1).2 h.2
  rw [gpuComputes_resident hl fun h => (hout h).1, cpuComputes_eq htwo hl]
  by_cases he : e ∈ l.method.gpuExpertsMask
  · rw [if_pos he, if_pos (Or.inr he), List.append_nil]
  · rw [if_neg he, if_neg (by simp [hland, he]), List.nil_append, cpuBytes,
      if_pos (hl.offGpu (Finset.mem_compl.mpr he))]

/-- A landed expert is computed once, or by nobody on a layer that bypasses the GPU. -/
theorem computes_of_landed (htwo : c.env.tierEnabled = false) (hl : l.Served c n)
    (h : Layer.Landed l.method l' wanted) (hreads : l'.readsLanded c = true) (he : e ∈ wanted)
    (hout : e ∉ l.method.gpuExpertsMask) :
    l'.gpuComputes c e ++ l'.cpuComputes c e = if l.method.numGpuExperts = 0 then [] else [some e] := by
  have hcpu : e ∈ l'.pfLandedCpu := by
    rw [h.landedCpu]
    exact he
  rw [gpuComputes_landed h hreads he, cpuComputes_eq htwo (h.served hl), if_pos (Or.inl ⟨hreads, hcpu⟩),
    List.append_nil, cpuBytes, if_pos (hl.offGpu (Finset.mem_compl.mpr hout))]

/-- The full-GPU context holds every expert's own weights. -/
theorem load_full (hl : l.Served c n) : load .w4afp8 l.method.store l.method none e = some e := by
  obtain ⟨t, ht, -, -⟩ := hl.ok.seats
  show (if e ∈ l.method.gpuExpertsMask then l.method.residentRow e else cpuBytes l.method.store e) = some e
  by_cases he : e ∈ l.method.gpuExpertsMask
  · rw [if_pos he]
    exact residentRow_eq ht hl.honest he
  · rw [if_neg he, cpuBytes, if_pos (hl.offGpu (Finset.mem_compl.mpr he))]

/-! ## One forward -/

/-- No prediction is read that was not made for the forward. -/
theorem readsLanded_of_idle (hflags : c.flags = {}) (h : l.pfIssued = false) : l.readsLanded c = false := by
  unfold Layer.readsLanded
  rw [hflags, h]
  simp

/-- The predictions of a forward keep what holds while a layer is served. -/
theorem issues_served (hflags : c.flags = {}) (hl : l.Served c n) (is : List (Issue E))
    (h : l.issues c.flags c.topk c.table is = some l') : l'.Served c n := by
  by_cases hon : 0 < S ∧ c.table = true
  · rw [hflags, hon.2] at h
    rcases List.eq_nil_or_concat is with rfl | ⟨is', i, rfl⟩
    · cases h
      exact hl
    · exact ((issues_spec hon.1 _ l).2 l' h i (by simp)).served hl
  · rw [issues_inert hon] at h
    cases h
    exact hl

/-- A forward that reads nothing landed, or falls back, computes every routed id once. -/
theorem apply_of_not_reads (htwo : c.env.tierEnabled = false) (hl : l.Served c n) {p : Pass E}
    (h : c.FallsBack p ∨ l.readsLanded c = false) (e : Fin E) : (l.apply c p).1 e = [some e] := by
  unfold Layer.apply
  by_cases hfull : c.FallsBack p
  · rw [if_pos hfull]
    show [load .w4afp8 l.method.store l.method none e] = [some e]
    rw [load_full hl]
  · rw [if_neg hfull]
    refine computes_of_notLanded htwo hl fun hreads => ?_
    exact absurd (hreads.symm.trans (h.resolve_left hfull)) (by decide)

/-- A forward that reads what landed computes every routed id once exactly when the GPU runs the landed ones, or
none of them is routed. -/
theorem apply_of_landed (htwo : c.env.tierEnabled = false) (hl : l.Served c n) (h : Layer.Landed l.method l' wanted)
    (hreads : l'.readsLanded c = true) (hout : ∀ e ∈ wanted, e ∉ l.method.gpuExpertsMask) {p : Pass E}
    (hfull : ¬ c.FallsBack p) :
    (∀ e ∈ p.topkIds, (l'.apply c p).1 e = [some e]) ↔
      l.method.numGpuExperts ≠ 0 ∨ ∀ e ∈ p.topkIds, e ∉ wanted := by
  have hcomputes : ∀ e, (l'.apply c p).1 e = if e ∈ wanted ∧ l.method.numGpuExperts = 0 then [] else [some e] := by
    intro e
    unfold Layer.apply
    rw [if_neg hfull]
    show l'.gpuComputes c e ++ l'.cpuComputes c e = _
    by_cases he : e ∈ wanted
    · rw [computes_of_landed htwo hl h hreads he (hout e he)]
      simp [he]
    · rw [computes_of_notLanded htwo (h.served hl) fun _ => by rw [h.landed, h.landedCpu]; exact ⟨he, he⟩]
      simp [he]
  simp only [hcomputes]
  constructor
  · intro hall
    by_contra hneg
    push Not at hneg
    obtain ⟨hzero, e, hroute, he⟩ := hneg
    have hnone := hall e hroute
    rw [if_pos ⟨he, hzero⟩] at hnone
    exact absurd hnone (by simp)
  · rintro hkeep e hroute
    refine if_neg fun ⟨he, hzero⟩ => ?_
    rcases hkeep with hnum | hnot
    · exact hnum hzero
    · exact hnot e hroute he

/-- A forward whose predictions leave a layer that reads nothing landed computes every routed id once. -/
theorem computesOnce_of_not_reads (htwo : c.env.tierEnabled = false) (hl : l'.Served c n) {p : Pass E}
    (hres : l.issues c.flags c.topk c.table p.issues = some l') (hreads : l'.readsLanded c = false) :
    l.ComputesOnce c p := by
  intro l'' h
  obtain rfl := Option.some.inj (hres.symm.trans h)
  refine ⟨fun hon => ?_, fun e _ => apply_of_not_reads htwo hl (Or.inr hreads) e⟩
  exact absurd (hon.symm.trans hreads) (by decide)

/-- A forward with predictions on an active layer. -/
theorem computesOnce_of_predicted (hflags : c.flags = {}) (htwo : c.env.tierEnabled = false) (hl : l.Served c n)
    {p : Pass E} (hS : 0 < S) (htable : c.table = true) {i : Issue E} (hi : p.issues.getLast? = some i)
    (hres : l.issues c.flags c.topk c.table p.issues = some l') :
    l.ComputesOnce c p ↔ c.FallsBack p ∨ l.method.numGpuExperts ≠ 0 ∨
      ∀ e ∈ p.topkIds, e ∉ covered S l.method.gpuExpertsMaskCuda i.predictedIds := by
  have hserved := issues_served hflags hl p.issues hres
  have hland : Layer.Landed l.method l' (covered S l.method.gpuExpertsMaskCuda i.predictedIds) := by
    have hdefault := hres
    rw [hflags, htable] at hdefault
    exact (issues_spec hS p.issues l).2 l' hdefault i hi
  have hreads : l'.readsLanded c = true := by
    unfold Layer.readsLanded
    rw [hland.issued, htable]
    simpa using hS
  have hsub : covered S l.method.gpuExpertsMaskCuda i.predictedIds ⊆
      i.predictedIds.toFinset \ l.method.gpuExpertsMaskCuda := covered_subset
  have hfresh : l'.pfLanded ⊆ i.predictedIds.toFinset := by
    rw [hland.landed]
    exact hsub.trans Finset.sdiff_subset
  have hout : ∀ e ∈ covered S l.method.gpuExpertsMaskCuda i.predictedIds, e ∉ l.method.gpuExpertsMask := by
    obtain ⟨t, ht, -, -⟩ := hl.ok.seats
    rw [← ht.maskCuda]
    exact fun e he => (Finset.mem_sdiff.mp (hsub he)).2
  have hids : l.ComputesOnce c p ↔ ∀ e ∈ p.topkIds, (l'.apply c p).1 e = [some e] := by
    refine ⟨fun h => (h l' hres).2, fun h l'' hl'' => ?_⟩
    obtain rfl := Option.some.inj (hres.symm.trans hl'')
    exact ⟨fun _ => ⟨i, hi, hfresh⟩, h⟩
  rw [hids]
  by_cases hfull : c.FallsBack p
  · exact ⟨fun _ => Or.inl hfull, fun _ e _ => apply_of_not_reads htwo hserved (Or.inl hfull) e⟩
  · rw [apply_of_landed htwo hl hland hreads hout hfull]
    simp [hfull]

/-- **One forward.** From a layer with no prediction outstanding, a forward computes every routed id once, and
out of landing slots only what was predicted for it, exactly when it runs what landed. -/
theorem computesOnce_iff (hflags : c.flags = {}) (htwo : c.env.tierEnabled = false) (hl : l.Ok c n) (p : Pass E) :
    l.ComputesOnce c p ↔ l.RunsLanded c p := by
  have hidle := readsLanded_of_idle hflags hl.idle
  unfold Layer.RunsLanded
  by_cases hon : ¬ (0 < S ∧ c.table = true)
  · have hres : l.issues c.flags c.topk c.table p.issues = some l := issues_inert hon p.issues
    exact ⟨fun _ => Or.inr (Or.inl hon), fun _ => computesOnce_of_not_reads htwo hl.toServed hres hidle⟩
  push Not at hon
  obtain ⟨hS, htable⟩ := hon
  have hnone : l.issues c.flags c.topk c.table p.issues = none ↔ ∃ i ∈ p.issues, i.Rejected S := by
    rw [hflags, htable]
    exact (issues_spec hS p.issues l).1
  cases hres : l.issues c.flags c.topk c.table p.issues with
  | none =>
    refine ⟨fun _ => Or.inr (Or.inr (Or.inr (Or.inl (hnone.mp hres)))), fun _ l' h => ?_⟩
    exact absurd (h.symm.trans hres) (Option.some_ne_none l')
  | some l' =>
    have hrej : ¬ ∃ i ∈ p.issues, i.Rejected S := fun h => Option.some_ne_none l' (hres.symm.trans (hnone.mpr h))
    cases hlast : p.issues.getLast? with
    | none =>
      -- no prediction in this forward, and none left over
      have hsame : some l = some l' := by
        rw [← hres, List.getLast?_eq_none_iff.mp hlast]
        rfl
      cases hsame
      refine ⟨fun _ => ?_, fun _ => computesOnce_of_not_reads htwo hl.toServed hres hidle⟩
      exact Or.inr (Or.inr (Or.inr (Or.inr fun i hi => absurd hi (by simp))))
    | some i =>
      rw [computesOnce_of_predicted hflags htwo hl.toServed hS htable hlast hres]
      have hon : ¬ ¬ (0 < S ∧ c.table = true) := not_not.mpr ⟨hS, htable⟩
      rw [or_iff_right hon, or_iff_right hrej, ← or_assoc, ← or_assoc, or_comm (a := c.FallsBack p)]
      simp only [Option.mem_some_iff, forall_eq']

end Served

/-! ## Runs -/

/-- The layer is as it is between forwards, or the process has ended. -/
def OkState (c : Serving E α) (n : ℕ) (s : Option (Layer E S)) : Prop := ∀ l ∈ s, l.Ok c n

section Runs

variable {c : Serving E α} {n : ℕ} {l : Layer E S}

/-- An adaptive tick leaves the layer served: the store holds every expert while the GPU set can change. -/
theorem tick_ok (htwo : c.env.tierEnabled = false) (hl : l.Ok c n) (hadaptive : c.adaptive = true) (ctl : Ctl α)
    (ev : AdaptiveEvent E α) :
    Layer.Ok c n { l with method := (ktAdaptiveUpdateLayer c.env .w4afp8 c.srt ev ctl l.method).2 } := by
  have hstatic : ¬ (c.env.tierEnabled ∧ c.env.ktTierDynamic) := fun h => Bool.false_ne_true (htwo.symm.trans h.1)
  have h : AdaptiveTicked c.env .w4afp8 ev ctl n l.method
      (ktAdaptiveUpdateLayer c.env .w4afp8 c.srt ev ctl l.method).2 :=
    ktAdaptiveUpdateLayer_spec hl.ok.seats hstatic
  have hstore := h.ram.store.trans (hl.all hadaptive)
  refine ⟨⟨⟨h.seats, h.wired hl.ok.wired, h.ram.tpRank.trans hl.ok.tpRank⟩, ?_, ?_, fun _ => hstore⟩, hl.idle⟩
  · exact h.honest (by decide) hl.offGpu hl.honest
  · show _ ⊆ Method.store _
    rw [hstore]
    exact Finset.subset_univ _

/-- **One event** keeps what holds between forwards. -/
theorem step_ok (hflags : c.flags = {}) (htwo : c.env.tierEnabled = false) (s : Option (Layer E S))
    (ev : LayerEvent E α) (hs : OkState c n s) : OkState c n (Layer.step c s ev) := by
  cases s with
  | none =>
    intro l' hl'
    exact absurd hl' (by simp [Layer.step])
  | some l =>
    have hl : l.Ok c n := hs l rfl
    intro l' hl'
    cases ev with
    | forward p =>
      obtain ⟨l₁, hres, rfl⟩ := Option.map_eq_some_iff.mp hl'
      have hserved := issues_served hflags hl.toServed p.issues hres
      exact ⟨⟨hserved.ok, hserved.honest, hserved.offGpu, hserved.all⟩, rfl⟩
    | tick ctl ev =>
      obtain rfl := Option.some.inj hl'
      by_cases hadaptive : c.adaptive = true
      · rw [if_pos hadaptive]
        exact tick_ok htwo hl hadaptive ctl ev
      · rw [if_neg hadaptive]
        exact hl

theorem boot_ok (htwo : c.env.tierEnabled = false) (ranking : Option (List (Fin E))) (gpuMask : Finset (Fin E)) :
    (Layer.boot S (Method.boot c.env c.adaptive ranking 0 gpuMask)).Ok c gpuMask.card := by
  have hstore : (Method.boot c.env c.adaptive ranking 0 gpuMask).store =
      if c.adaptive then Finset.univ else gpuMaskᶜ := by
    show loadStaged c.env c.adaptive gpuMask _ = _
    rw [loadStaged, if_neg (by simp [htwo])]
  refine ⟨⟨boot_layerOk c.adaptive ranking gpuMask, Method.boot_honest c.env c.adaptive ranking 0 gpuMask, ?_, ?_⟩, rfl⟩
  · show gpuMaskᶜ ⊆ (Method.boot c.env c.adaptive ranking 0 gpuMask).store
    rw [hstore]
    split
    · exact Finset.subset_univ _
    · exact subset_rfl
  · intro hadaptive
    show (Method.boot c.env c.adaptive ranking 0 gpuMask).store = Finset.univ
    rw [hstore, if_pos hadaptive]

/-- **Every routed id once.** From boot without a RAM limit, with the prefetch switches at their defaults and any
number of landing slots, over any sequence of forwards and adaptive ticks: every forward reads landed indices
only of its own predictions and computes every routed id once, with its own weights, exactly when every forward
runs what landed. -/
theorem forwards_computeOnce (c : Serving E α) (hflags : c.flags = {}) (htwo : c.env.tierEnabled = false)
    (ranking : Option (List (Fin E))) (gpuMask : Finset (Fin E)) (evs : List (LayerEvent E α)) :
    StepsMeet (Layer.step c) (OnForwards fun (l : Layer E S) p => l.ComputesOnce c p)
        (some (Layer.boot S (Method.boot c.env c.adaptive ranking 0 gpuMask))) evs ↔
      StepsMeet (Layer.step c) (OnForwards fun (l : Layer E S) p => l.RunsLanded c p)
        (some (Layer.boot S (Method.boot c.env c.adaptive ranking 0 gpuMask))) evs := by
  have hboot : OkState c gpuMask.card (some (Layer.boot S (Method.boot c.env c.adaptive ranking 0 gpuMask))) := by
    intro l hl
    obtain rfl := Option.some.inj hl
    exact boot_ok htwo ranking gpuMask
  refine stepsMeet_congr (step_ok hflags htwo) (fun s ev hs => ?_) hboot evs
  cases s with
  | none => cases ev <;> exact Iff.rfl
  | some l =>
    cases ev with
    | forward p => exact computesOnce_iff hflags htwo (hs l rfl) p
    | tick ctl ev => exact Iff.rfl

end Runs

/-- Four experts with the adaptive cache on, and a prefill threshold of 64 tokens. -/
def servedFour : Serving 4 ℚ where
  env := Env.unset
  flags := {}
  adaptive := true
  table := true
  gpuPrefillTokenThreshold := 64
  srt := Argsort.stable
  topk := Argsort.stable
  cpu := CpuKernel.strict 4

/-- A decode forward that predicts every expert and routes to every expert. -/
def decodeAll : Pass 4 where
  issues := [.plain (List.finRange 4)]
  numTokens := 1
  topkIds := List.finRange 4

theorem forwards_computeOnce_decodeAll :
    StepsMeet (Layer.step servedFour) (OnForwards fun (l : Layer 4 4) p => l.ComputesOnce servedFour p)
      (some (Layer.boot 4 (Method.boot servedFour.env true none 0 {0, 1})))
      [.forward decodeAll, .tick {} adaptiveWantTwo, .forward decodeAll] := by
  refine (forwards_computeOnce servedFour rfl (by decide) none {0, 1}
    [.forward decodeAll, .tick {} adaptiveWantTwo, .forward decodeAll]).mpr ?_
  refine ⟨Or.inl (by decide +kernel), trivial, Or.inl (by decide +kernel), trivial⟩

/-- Without GPU experts the prediction copies every expert into a landing slot, the CPU skips them, and the
GPU is bypassed: nobody computes them. -/
theorem landed_expert_dropped :
    ¬ StepsMeet (Layer.step servedFour) (OnForwards fun (l : Layer 4 4) p => l.ComputesOnce servedFour p)
      (some (Layer.boot 4 (Method.boot servedFour.env true none 0 ∅))) [.forward decodeAll] := by
  rintro ⟨h, -⟩
  have hdrop := (h _ rfl).2 2 (by decide)
  revert hdrop
  decide +kernel

end ExpertServe
