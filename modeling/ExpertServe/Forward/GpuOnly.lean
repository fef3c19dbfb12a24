import ExpertServe.Forward.Apply
import ExpertServe.Forward.Transfer
import ExpertServe.Tick.Honesty

/-!
# GPU-only mode

With `KT_GPU_ONLY` the router keeps a genuine expert only where it is resident or has landed for this forward, and
fills every other slot from the residents. `apply` runs afterwards, from its own latched copies. A forward here is
the predictions made for the layer, then the routing of its tokens, then `apply`.

* `Layer.NoCpuWork`: what leaves the router is on the GPU, and `apply` treats it so;
* `routedId_onGpu`: the router's half, one forward;
* `forwards_noCpuWork`: both halves agree in every forward of every run.
-/

namespace ExpertServe

open Lib

variable {E S k : ℕ} {α : Type*} [Field α] [LinearOrder α]

/-- What the router hands over for one token: its row, the logits of all experts, finite and so above the least
float, and the number of genuine experts to keep. -/
structure RouterRow (E k : ℕ) (α : Type*) [Field α] [LinearOrder α] extends WeightedRow E k α where
  scores : Fin E → α
  finite : ∀ e, finfoMin α < scores e
  keepK : ℕ

/-- How the router sorts and squashes. -/
structure Router (E k : ℕ) (α : Type*) [LinearOrder α] where
  srtRow : Argsort (Fin k) α
  srtAll : Argsort (Fin E) α
  sigmoid : α → α

/-- A forward before it is routed: the predictions made for the layer and the rows of its tokens. -/
structure TokenBatch (E k : ℕ) (α : Type*) [Field α] [LinearOrder α] where
  issues : List (Issue E)
  rows : List (RouterRow E k α)

/-- A forward, or an adaptive tick with the controller state it meets. -/
inductive RouterEvent (E k : ℕ) (α : Type*) [Field α] [LinearOrder α] where
  | forward (b : TokenBatch E k α)
  | tick (ctl : Ctl α) (ev : AdaptiveEvent E α)

namespace Layer

/-- What the router reads of the layer it routes for. -/
def placement (l : Layer E S) : Placement E where
  gpuExpertsMaskCuda := l.method.gpuExpertsMaskCuda
  ramExpertsMaskCuda := l.method.ramExpertsMaskCuda
  pfLanded := l.pfLanded
  pfIssued := l.pfIssued

/-- The ids that leave the router, of all tokens. -/
def routedIds (env : Env α) (rt : Router E k α) (rows : List (RouterRow E k α)) (l : Layer E S) : List (Fin E) :=
  rows.flatMap fun row => List.ofFn
    (safeRoute env rt.srtRow rt.srtAll rt.sigmoid l.placement row.toRow row.scores row.keepK).ids

/-- The forward as `apply` receives it. -/
def routed (env : Env α) (rt : Router E k α) (b : TokenBatch E k α) (l : Layer E S) : Pass E where
  issues := b.issues
  numTokens := b.rows.length
  topkIds := l.routedIds env rt b.rows

/-- The GPU slot `apply` reads for a routed id: the id itself in the full-GPU context, else the remapped one. -/
def gpuSlot (c : Serving E α) (p : Pass E) (l : Layer E S) (e : Fin E) : ℤ :=
  if c.FallsBack p then e else maskAndRemapExpertIds (l.pfEffMask c) (l.pfEffIndex c) e

/-- The weights in the slots `apply` reads: those of the full-GPU context, a slot for each expert, else the layer's own,
landing slots included. -/
def gpuSlots (c : Serving E α) (p : Pass E) (l : Layer E S) : ℕ → Option (Fin E) :=
  if c.FallsBack p then fun s => if h : s < E then load .w4afp8 l.method.store l.method none ⟨s, h⟩ else none
  else l.method.slots

/-- How many there are. -/
def numSlots (c : Serving E α) (p : Pass E) (l : Layer E S) : ℕ :=
  if c.FallsBack p then E else l.method.numGpuExperts + S

/-- The weights the CPU store computes a routed id with; the full-GPU context hands it nothing. -/
def cpuWork (c : Serving E α) (p : Pass E) (l : Layer E S) (e : Fin E) : List (Option (Fin E)) :=
  if c.FallsBack p then [] else l.cpuComputes c e

/-- One event; `none` is a process that has ended. -/
def serve (c : Serving E α) (rt : Router E k α) : Option (Layer E S) → RouterEvent E k α → Option (Layer E S)
  | none, _ => none
  | some l, .forward b => (l.issues c.flags c.topk c.table b.issues).map fun l' => (l'.apply c (l'.routed c.env rt b)).2
  | some l, .tick ctl ev => Layer.step c (some l) (.tick ctl ev)

/-- The slot is one of those `apply` reads, and holds the expert's own weights if it is resident, else those the CPU
store has of it. -/
def HeldAt (c : Serving E α) (p : Pass E) (l : Layer E S) (slot : ℤ) (e : Fin E) : Prop :=
  (0 ≤ slot ∧ slot < l.numSlots c p) ∧
    l.gpuSlots c p slot.toNat = if e ∈ l.method.gpuExpertsMask then some e else cpuBytes l.method.store e

/-- Every id that leaves the router is resident or was landed by a prediction of this forward; `apply` reads it from the
slot that holds it, which without a RAM limit is its own weights whoever it is; and it is none the CPU store
computes. -/
def NoCpuWork (c : Serving E α) (rt : Router E k α) (l : Layer E S) (b : TokenBatch E k α) : Prop :=
  ∀ l', l.issues c.flags c.topk c.table b.issues = some l' → ∀ e ∈ l'.routedIds c.env rt b.rows,
    (e ∈ l'.method.gpuExpertsMask ∨ (e ∈ l'.pfLanded ∧ ∃ i ∈ b.issues, e ∈ i.predictedIds)) ∧
      l'.HeldAt c (l'.routed c.env rt b) (l'.gpuSlot c (l'.routed c.env rt b) e) e ∧
      (c.env.tierEnabled = false → e ∈ l'.method.gpuExpertsMask ∨ cpuBytes l'.method.store e = some e) ∧
      l'.cpuWork c (l'.routed c.env rt b) e = []

/-- What holds of a layer of `n` residents while it is served, a prediction outstanding or not. -/
structure Stocked (c : Serving E α) (n : ℕ) (l : Layer E S) : Prop where
  ok : LayerOk c.env n l.method
  honest : l.method.Honest
  owned : c.env.tierEnabled = true → Owned c.env n l.method
  offGpu : c.env.tierEnabled = false → l.method.gpuExpertsMaskᶜ ⊆ l.method.store
  all : c.env.tierEnabled = false → c.adaptive = true → l.method.store = Finset.univ

/-- What holds of it between forwards. -/
structure Idle (c : Serving E α) (n : ℕ) (l : Layer E S) : Prop extends Layer.Stocked c n l where
  noneOutstanding : l.pfIssued = false

/-- What the predictions of a forward leave: nothing, or a set of experts they name, with a slot for each. -/
inductive Predicted (m : Method E) (is : List (Issue E)) (l : Layer E S) : Prop where
  | nothing (same : l.method = m) (idle : l.pfIssued = false)
  | landed (wanted : Finset (Fin E)) (named : ∀ e ∈ wanted, ∃ i ∈ is, e ∈ i.predictedIds)
    (out : ∀ e ∈ wanted, e ∉ m.gpuExpertsMaskCuda) (spec : l.Landed m wanted)

end Layer

section OneForward

variable {c : Serving E α} {rt : Router E k α} {n : ℕ} {l l' : Layer E S} {e : Fin E}

/-- The predictions of a forward start from a layer with none outstanding. -/
theorem issues_predicted {selective : Bool} (hflags : c.flags = { selective := selective }) (hl : l.Idle c n)
    {is : List (Issue E)} (h : l.issues c.flags c.topk c.table is = some l') : l'.Predicted l.method is := by
  by_cases hon : 0 < S ∧ c.table = true
  · rw [hflags, hon.2] at h
    cases hlast : is.getLast? with
    | none =>
      obtain rfl := List.getLast?_eq_none_iff.mp hlast
      obtain rfl := Option.some.inj h
      exact .nothing rfl hl.noneOutstanding
    | some i =>
      obtain ⟨wanted, hsub, hland⟩ := issues_land hon.1 is l h hlast
      refine .landed wanted (fun e he => ⟨i, List.mem_of_getLast? hlast, ?_⟩) (fun e he => ?_) hland
      · exact List.mem_toFinset.mp (Finset.mem_sdiff.mp (hsub he)).1
      · exact (Finset.mem_sdiff.mp (hsub he)).2
  · rw [issues_inert hon] at h
    obtain rfl := Option.some.inj h
    exact .nothing rfl hl.noneOutstanding

/-- Predictions fill landing slots, and leave the masks, the tables, the store and every resident's slot alone. -/
theorem Layer.Landed.stocked {wanted : Finset (Fin E)} (h : Layer.Landed l.method l' wanted)
    (hl : l.Stocked c n) : l'.Stocked c n := by
  have hok : LayerOk c.env n l'.method := h.layerOk hl.ok
  obtain ⟨slots, hm, hslots⟩ := h.method
  obtain ⟨t, ht, hlen, hnum⟩ := hl.ok.seats
  refine ⟨hok, ?_, fun htier => ?_, ?_, ?_⟩
  · rw [hm]
    intro s e hs
    have hlt : s < t.occupants.length := by
      rw [← ht.occupants]
      exact (List.getElem?_eq_some_iff.mp hs).1
    show slots s = some e
    rw [hslots s (by omega)]
    exact hl.honest s e hs
  · obtain ⟨-, -, -, hdisj, hmirror, hstaged⟩ := hl.owned htier
    rw [hm] at hok ⊢
    exact ⟨hok.seats, hok.wired, hok.tpRank, hdisj, hmirror, hstaged⟩
  · rw [hm]
    exact hl.offGpu
  · rw [hm]
    exact hl.all

theorem Layer.Predicted.stocked {is : List (Issue E)} (h : l'.Predicted l.method is) (hl : l.Idle c n) :
    l'.Stocked c n := by
  cases h with
  | nothing same _ => exact ⟨same ▸ hl.ok, same ▸ hl.honest, same ▸ hl.owned, same ▸ hl.offGpu, same ▸ hl.all⟩
  | landed wanted _ _ spec => exact spec.stocked hl.toStocked

omit [LinearOrder α] in
/-- What the router may keep on the GPU is resident, or has landed for this forward. -/
theorem mem_onGpu_placement {is : List (Issue E)} {m : Method E} (h : l'.Predicted m is) (he : e ∈ l'.placement.onGpu) :
    e ∈ l'.method.gpuExpertsMaskCuda ∨ (e ∈ l'.pfLanded ∧ l'.pfIssued = true ∧ ∃ i ∈ is, e ∈ i.predictedIds) := by
  unfold Placement.onGpu Layer.placement at he
  dsimp only at he
  cases h with
  | nothing _ idle =>
    rw [idle, if_neg Bool.false_ne_true] at he
    exact Or.inl he
  | landed wanted named _ spec =>
    rw [spec.issued, if_pos rfl, Finset.mem_union] at he
    refine he.imp_right fun hland => ⟨hland, spec.issued, named e ?_⟩
    rwa [← spec.landed]

/-- With twice as many residents as slots there is always a resident left to fill a slot with. -/
theorem dropped_le_eligible (hpool : c.env.ktTierFillPool = .gpu) {p : Placement E} (row : RouterRow E k α)
    (hcard : 2 * k ≤ p.gpuExpertsMaskCuda.card) (keep : Fin k → Bool) :
    (dropped keep).card ≤ (eligible c.env p row.toRow row.scores).card := by
  have hsub : p.gpuExpertsMaskCuda \ Finset.univ.image row.ids ⊆ eligible c.env p row.toRow row.scores := by
    intro e he
    obtain ⟨hgpu, hnew⟩ := Finset.mem_sdiff.mp he
    refine Finset.mem_filter.mpr ⟨?_, fun j hj => ?_, row.finite e⟩
    · unfold Placement.fillVec
      rw [hpool]
      exact hgpu
    · exact hnew (Finset.mem_image.mpr ⟨j, Finset.mem_univ j, hj⟩)
  have hslots : (dropped keep).card ≤ k := by simpa using (dropped keep).card_le_univ
  have hnamed : (Finset.univ.image row.ids).card ≤ k := by
    simpa using Finset.card_image_le (s := Finset.univ) (f := row.ids)
  have hleft := Finset.le_card_sdiff (Finset.univ.image row.ids) p.gpuExpertsMaskCuda
  have hcard' := Finset.card_le_card hsub
  omega

variable [IsStrictOrderedRing α]

variable (rt) in
/-- **The router's half.** What leaves the router in GPU-only mode is on the GPU. -/
theorem routedId_onGpu (honly : c.env.ktGpuOnly = true) (hpool : c.env.ktTierFillPool = .gpu) {p : Placement E}
    (row : RouterRow E k α) (hcard : 2 * k ≤ p.gpuExpertsMaskCuda.card) (j : Fin k) :
    (safeRoute c.env rt.srtRow rt.srtAll rt.sigmoid p row.toRow row.scores row.keepK).ids j ∈ p.onGpu := by
  have hrow : row.toRow.Fillable := row.toWeightedRow.fillable
  have hsub : p.gpuExpertsMaskCuda ⊆ p.onGpu := by
    unfold Placement.onGpu
    split
    · exact Finset.subset_union_left
    · exact subset_rfl
  unfold safeRoute
  cases hj : keepMask c.env rt.srtRow p row.toRow row.keepK j with
  | true =>
    rw [substitute_ids_of_keep hj]
    unfold keepMask at hj
    simp only [honly, Bool.and_eq_true, Bool.not_true, Bool.false_or, decide_eq_true_eq] at hj
    exact hj.2
  | false =>
    have helig := substitute_eligible rt.srtRow rt.srtAll rt.sigmoid hrow
      (dropped_le_eligible hpool row hcard (keepMask c.env rt.srtRow p row.toRow row.keepK)) hj
    have hfill := (Finset.mem_filter.mp helig).1
    unfold Placement.fillVec at hfill
    rw [hpool] at hfill
    exact hsub hfill

omit [IsStrictOrderedRing α] in
/-- An id that has landed for this forward is read from the slot its copy went to, and is -1 for the CPU. -/
theorem landed_onGpu {m : Method E} {wanted : Finset (Fin E)} (hm : m.gpuExpertsMaskCuda = m.gpuExpertsMask)
    (spec : Layer.Landed m l' wanted) (out : ∀ e ∈ wanted, e ∉ m.gpuExpertsMaskCuda) (hreads : l'.readsLanded c = true)
    (he : e ∈ l'.pfLanded) {p : Pass E} (hfull : ¬ c.FallsBack p) :
    l'.HeldAt c p (maskAndRemapExpertIds (l'.pfEffMask c) (l'.pfEffIndex c) e) e ∧ l'.cpuComputes c e = [] := by
  have hmem : e ∈ wanted := by
    rw [← spec.landed]
    exact he
  have hmask : e ∈ l'.pfEffMask c := by
    unfold Layer.pfEffMask
    rw [if_pos hreads]
    exact Finset.mem_union_right _ he
  have hindex : l'.pfEffIndex c e = l'.pfIndex e := if_pos ⟨hreads, he⟩
  have hcpu : e ∈ l'.pfLandedCpu := by
    rw [spec.landedCpu]
    exact hmem
  constructor
  · obtain ⟨slots, heq, -⟩ := spec.method
    obtain ⟨hnonneg, hbytes⟩ := spec.bytes e hmem
    have hlt := spec.index_lt e hmem
    have hout : e ∉ l'.method.gpuExpertsMask := by
      rw [heq, ← hm]
      exact out e hmem
    have hstore : l'.method.store = m.store := by
      rw [heq]
      rfl
    have hnum : l'.method.numGpuExperts = m.numGpuExperts := by rw [heq]
    unfold Layer.HeldAt Layer.numSlots Layer.gpuSlots maskAndRemapExpertIds
    rw [if_pos hmask, hindex, if_neg hfull, if_neg hfull, if_neg hout, hbytes, hstore, hnum]
    exact ⟨⟨hnonneg, by simpa using hlt⟩, rfl⟩
  · unfold Layer.cpuComputes Layer.submittedId
    rw [if_pos ⟨hreads, hcpu⟩]
    cases l'.method.wrapper with
    | none => rfl
    | some w =>
      dsimp only
      rw [c.cpu.skip_neg _ _ (by omega), if_pos rfl]

omit [IsStrictOrderedRing α] in
/-- A resident that `apply` does not read as landed is read from its own slot, and its worker skips it. -/
theorem resident_onGpu (hl : l'.Stocked c n) (he : e ∈ l'.method.gpuExpertsMaskCuda)
    (hland : ¬ (l'.readsLanded c = true ∧ e ∈ l'.pfLanded))
    (hcpu : ¬ (l'.readsLanded c = true ∧ e ∈ l'.pfLandedCpu)) {p : Pass E} (hfull : ¬ c.FallsBack p) :
    l'.HeldAt c p (maskAndRemapExpertIds (l'.pfEffMask c) (l'.pfEffIndex c) e) e ∧ l'.cpuComputes c e = [] := by
  obtain ⟨t, ht, hlen, hnum⟩ := hl.ok.seats
  have hres : e ∈ l'.method.gpuExpertsMask := by
    rw [← ht.maskCuda]
    exact he
  have hmask : e ∈ l'.pfEffMask c := by
    unfold Layer.pfEffMask
    split
    · exact Finset.mem_union_left _ he
    · exact he
  have hindex : l'.pfEffIndex c e = l'.method.logicalToGpuIndex e := by
    unfold Layer.pfEffIndex
    rw [if_neg hland, ht.indexCuda]
  have hskip : e ∈ l'.method.ktCpuSkipMask c.env := by
    unfold Method.ktCpuSkipMask
    split
    · next htier => exact Finset.mem_compl.mpr (Finset.disjoint_left.mp (hl.owned htier).disjoint hres)
    · exact hres
  constructor
  · have hseat : e ∈ t.residents := by
      rw [← ht.mask]
      exact hres
    obtain ⟨s, hs⟩ := List.getElem?_of_mem (Seating.mem_residents.mp hseat)
    have hslot : l'.method.logicalToGpuIndex e = s := by
      rw [ht.index]
      exact Seating.index_of_getElem? hs
    have hrow : l'.method.slots (l'.method.logicalToGpuIndex e).toNat = some e := residentRow_eq ht hl.honest hres
    have hlt := (List.getElem?_eq_some_iff.mp hs).1
    unfold Layer.HeldAt Layer.numSlots Layer.gpuSlots maskAndRemapExpertIds
    rw [if_pos hmask, hindex, if_neg hfull, if_neg hfull, if_pos hres, hrow, hslot]
    exact ⟨by omega, rfl⟩
  · unfold Layer.cpuComputes Layer.submittedId
    rw [if_neg hcpu]
    cases hw : l'.method.wrapper with
    | none => rfl
    | some w =>
      dsimp only
      rw [c.cpu.skip_expert, hl.ok.wired.mask w hw, if_pos (decide_eq_true hskip)]

omit [IsStrictOrderedRing α] in
/-- The full-GPU context has a slot for each expert: the resident's own weights, else the store's. -/
theorem fullContext_onGpu (hl : l'.Stocked c n) {p : Pass E} (hfull : c.FallsBack p) : l'.HeldAt c p e e := by
  obtain ⟨t, ht, -, -⟩ := hl.ok.seats
  have hcontent : load .w4afp8 l'.method.store l'.method none e =
      if e ∈ l'.method.gpuExpertsMask then some e else cpuBytes l'.method.store e := by
    show (if e ∈ l'.method.gpuExpertsMask then l'.method.residentRow e else _) = _
    by_cases he : e ∈ l'.method.gpuExpertsMask
    · rw [if_pos he, if_pos he]
      exact residentRow_eq ht hl.honest he
    · rw [if_neg he, if_neg he]
  unfold Layer.HeldAt Layer.numSlots Layer.gpuSlots
  rw [if_pos hfull, if_pos hfull]
  refine ⟨⟨Int.natCast_nonneg _, by exact_mod_cast e.isLt⟩, ?_⟩
  have hlt : ((e : ℕ) : ℤ).toNat < E := by simp
  rw [dif_pos hlt]
  exact hcontent

omit [IsStrictOrderedRing α] in
/-- **The half of `apply`.** An id that is resident, or landed with the prediction outstanding, is held by the GPU slot
it is read from and makes no CPU work. -/
theorem apply_onGpu {selective : Bool} (hflags : c.flags = { selective := selective }) (hl : l.Idle c n)
    {is : List (Issue E)} (hpred : l'.Predicted l.method is) (hactive : l'.pfIssued = true → 0 < S ∧ c.table = true)
    (he : e ∈ l'.method.gpuExpertsMaskCuda ∨ (e ∈ l'.pfLanded ∧ l'.pfIssued = true)) (p : Pass E) :
    l'.HeldAt c p (l'.gpuSlot c p e) e ∧ l'.cpuWork c p e = [] := by
  have hstocked := hpred.stocked hl
  have hreads : l'.readsLanded c = l'.pfIssued := by
    unfold Layer.readsLanded
    rw [hflags]
    cases hissued : l'.pfIssued with
    | true => simp [hactive hissued]
    | false => simp
  unfold Layer.gpuSlot Layer.cpuWork
  by_cases hfull : c.FallsBack p
  · rw [if_pos hfull, if_pos hfull]
    exact ⟨fullContext_onGpu hstocked hfull, rfl⟩
  rw [if_neg hfull, if_neg hfull]
  by_cases hland : e ∈ l'.pfLanded ∧ l'.pfIssued = true
  · cases hpred with
    | nothing _ idle => exact absurd (hland.2.symm.trans idle) (by decide)
    | landed wanted _ out spec =>
      obtain ⟨t, ht, -, -⟩ := hl.ok.seats
      exact landed_onGpu ht.maskCuda spec out (hreads.trans hland.2) hland.1 hfull
  · refine resident_onGpu hstocked (he.resolve_right hland) (fun h => hland ⟨h.2, hreads.symm.trans h.1⟩) ?_ hfull
    rintro ⟨hr, hcpu⟩
    cases hpred with
    | nothing _ idle => exact absurd ((hreads.symm.trans hr).symm.trans idle) (by decide)
    | landed wanted _ _ spec =>
      refine hland ⟨?_, hreads.symm.trans hr⟩
      rw [spec.landed, ← spec.landedCpu]
      exact hcpu

/-- **One forward** of a layer with twice as many residents as routed slots. -/
theorem noCpuWork_of_idle {selective : Bool} (hflags : c.flags = { selective := selective })
    (honly : c.env.ktGpuOnly = true) (hpool : c.env.ktTierFillPool = .gpu) (hcard : 2 * k ≤ n) (hl : l.Idle c n)
    (b : TokenBatch E k α) : l.NoCpuWork c rt b := by
  intro l' hres e he
  have hpred := issues_predicted hflags hl hres
  have hstocked := hpred.stocked hl
  obtain ⟨t, ht, -, -⟩ := id hstocked.ok.seats
  have hsize : 2 * k ≤ l'.placement.gpuExpertsMaskCuda.card := by
    show 2 * k ≤ l'.method.gpuExpertsMaskCuda.card
    rw [ht.maskCuda, hstocked.ok.seats.card_mask]
    exact hcard
  obtain ⟨row, -, hrow⟩ := List.mem_flatMap.mp he
  obtain ⟨j, rfl⟩ := List.mem_ofFn.mp hrow
  have hon := mem_onGpu_placement hpred (routedId_onGpu rt honly hpool row hsize j)
  generalize (safeRoute c.env rt.srtRow rt.srtAll rt.sigmoid l'.placement row.toRow row.scores row.keepK).ids j = e at *
  have hactive : l'.pfIssued = true → 0 < S ∧ c.table = true := by
    intro hissued
    by_contra hoff
    rw [issues_inert hoff] at hres
    obtain rfl := Option.some.inj hres
    exact absurd (hissued.symm.trans hl.noneOutstanding) (by decide)
  obtain ⟨hslot, hcpu⟩ := apply_onGpu hflags hl hpred hactive (hon.imp_right fun h => ⟨h.1, h.2.1⟩)
    (l'.routed c.env rt b)
  refine ⟨?_, hslot, fun htwo => ?_, hcpu⟩
  · rw [← ht.maskCuda]
    exact hon.imp_right fun h => ⟨h.1, h.2.2⟩
  · refine or_iff_not_imp_left.mpr fun hout => ?_
    rw [cpuBytes, if_pos (hstocked.offGpu htwo (Finset.mem_compl.mpr hout))]

end OneForward

/-! ## Runs -/

section Runs

variable {c : Serving E α} {rt : Router E k α} {n : ℕ}

/-- The layer is as it is between forwards, or the process has ended. -/
def IdleState (c : Serving E α) (n : ℕ) (s : Option (Layer E S)) : Prop := ∀ l ∈ s, l.Idle c n

/-- The event is a forward, or a tick that moves both masks, or the only one there is. -/
def RouterEvent.KeepsTiers (c : Serving E α) : RouterEvent E k α → Prop
  | .forward _ => True
  | .tick _ _ => c.adaptive = true → c.env.tierEnabled = false ∨ c.env.ktTierDynamic = true

/-- A tick of the dynamic tier takes arrivals from the RAM tier, which is staged; without a RAM limit the store of an
adaptive server holds every expert. -/
theorem tick_idle (hadaptive : c.adaptive = true) (hticks : c.env.tierEnabled = false ∨ c.env.ktTierDynamic = true)
    {l : Layer E S} (hl : l.Idle c n) (ctl : Ctl α) (ev : AdaptiveEvent E α) :
    Layer.Idle c n { l with method := (ktAdaptiveUpdateLayer c.env .w4afp8 c.srt ev ctl l.method).2 } := by
  by_cases htier : c.env.tierEnabled = true
  · have hdyn : c.env.tierEnabled ∧ c.env.ktTierDynamic :=
      ⟨htier, hticks.resolve_left fun h => absurd (htier.symm.trans h) (by decide)⟩
    have howned := hl.owned htier
    have h := ktTierUpdateLayer_applied .w4afp8 c.srt ev.toTierEvent howned.seats howned.wired howned.disjoint
    have hsources : SourcesStaged .w4afp8 _ (whereTrue (tierPlan c.env c.srt ev.toTierEvent _).1) _ :=
      (sourcesStaged_iff_retainedStaged howned ev.toTierEvent).mpr fun hq => absurd hq (by decide)
    have howned' := ktTierUpdateLayer_owned .w4afp8 c.srt ev.toTierEvent howned
    rw [ktAdaptiveUpdateLayer_dynamic hdyn]
    refine ⟨⟨⟨howned'.seats, howned'.wired, howned'.tpRank⟩, (h.honest hl.honest).mpr hsources, fun _ => howned', ?_, ?_⟩,
      hl.noneOutstanding⟩
    · exact fun htwo => absurd (htier.symm.trans htwo) (by decide)
    · exact fun htwo => absurd (htier.symm.trans htwo) (by decide)
  · have htwo : c.env.tierEnabled = false := Bool.eq_false_iff.mpr htier
    have hstatic : ¬ (c.env.tierEnabled ∧ c.env.ktTierDynamic) := fun h => htier h.1
    have h : AdaptiveTicked c.env .w4afp8 ev ctl n l.method
        (ktAdaptiveUpdateLayer c.env .w4afp8 c.srt ev ctl l.method).2 :=
      ktAdaptiveUpdateLayer_spec hl.ok.seats hstatic
    have hstore := h.ram.store.trans (hl.all htwo hadaptive)
    refine ⟨⟨⟨h.seats, h.wired hl.ok.wired, h.ram.tpRank.trans hl.ok.tpRank⟩, ?_, fun h => absurd h htier,
      fun _ => ?_, fun _ _ => hstore⟩, hl.noneOutstanding⟩
    · exact h.honest (by decide) (hl.offGpu htwo) hl.honest
    · show _ ⊆ Method.store _
      rw [hstore]
      exact Finset.subset_univ _

/-- **One event** leaves no prediction outstanding and the masks in order. -/
theorem serve_idle {selective : Bool} (hflags : c.flags = { selective := selective }) (s : Option (Layer E S))
    (ev : RouterEvent E k α) (hev : ev.KeepsTiers c) (hs : IdleState c n s) :
    IdleState c n (Layer.serve c rt s ev) := by
  cases s with
  | none =>
    intro l' hl'
    exact absurd hl' (by simp [Layer.serve])
  | some l =>
    have hl : l.Idle c n := hs l rfl
    intro l' hl'
    cases ev with
    | forward b =>
      obtain ⟨l₁, hres, rfl⟩ := Option.map_eq_some_iff.mp hl'
      have hstocked := (issues_predicted hflags hl hres).stocked hl
      exact ⟨⟨hstocked.ok, hstocked.honest, hstocked.owned, hstocked.offGpu, hstocked.all⟩, rfl⟩
    | tick ctl ev =>
      obtain rfl := Option.some.inj hl'
      by_cases hadaptive : c.adaptive = true
      · rw [if_pos hadaptive]
        exact tick_idle hadaptive (hev hadaptive) hl ctl ev
      · rw [if_neg hadaptive]
        exact hl

/-- A property of forwards, on the events of a run. -/
def OnBatches (P : Layer E S → TokenBatch E k α → Prop) : Option (Layer E S) → RouterEvent E k α → Prop
  | some l, .forward b => P l b
  | _, _ => True

theorem boot_idle (ranking : Option (List (Fin E))) (gpuMask : Finset (Fin E)) :
    (Layer.boot S (Method.boot c.env c.adaptive ranking 0 gpuMask)).Idle c gpuMask.card := by
  have hstore : c.env.tierEnabled = false → (Method.boot c.env c.adaptive ranking 0 gpuMask).store =
      if c.adaptive then Finset.univ else gpuMaskᶜ := by
    intro htwo
    show loadStaged c.env c.adaptive gpuMask _ = _
    rw [loadStaged, if_neg (by simp [htwo])]
  refine ⟨⟨boot_layerOk c.adaptive ranking gpuMask, Method.boot_honest c.env c.adaptive ranking 0 gpuMask,
    fun _ => boot_owned c.adaptive ranking gpuMask, fun htwo => ?_, fun htwo hadaptive => ?_⟩, rfl⟩
  · show gpuMaskᶜ ⊆ (Method.boot c.env c.adaptive ranking 0 gpuMask).store
    rw [hstore htwo]
    split
    · exact Finset.subset_univ _
    · exact subset_rfl
  · show (Method.boot c.env c.adaptive ranking 0 gpuMask).store = Finset.univ
    rw [hstore htwo, if_pos hadaptive]

variable [IsStrictOrderedRing α]

/-- **GPU-only mode does no CPU expert work.** From boot with at least twice as many residents as routed slots, with
or without a RAM limit, selective prefetching on or off: in every forward of every run each id that leaves the router
is resident or landed for that forward, is read by `apply` from a GPU slot that holds it, and is none the CPU store
computes. Adaptive ticks may come in between, except on a RAM-limited server whose ticks move the GPU mask alone. -/
theorem forwards_noCpuWork (c : Serving E α) (rt : Router E k α) (selective : Bool)
    (hflags : c.flags = { selective := selective }) (honly : c.env.ktGpuOnly = true)
    (hpool : c.env.ktTierFillPool = .gpu) (ranking : Option (List (Fin E))) (gpuMask : Finset (Fin E))
    (hcard : 2 * k ≤ gpuMask.card) (evs : List (RouterEvent E k α)) (hevs : ∀ ev ∈ evs, ev.KeepsTiers c) :
    StepsMeet (Layer.serve c rt) (OnBatches fun (l : Layer E S) b => l.NoCpuWork c rt b)
      (some (Layer.boot S (Method.boot c.env c.adaptive ranking 0 gpuMask))) evs := by
  have hboot : IdleState c gpuMask.card (some (Layer.boot S (Method.boot c.env c.adaptive ranking 0 gpuMask))) := by
    intro l hl
    obtain rfl := Option.some.inj hl
    exact boot_idle ranking gpuMask
  refine StepsMeet.of_invariant (I := IdleState c gpuMask.card) (serve_idle hflags) (fun s ev _ hs => ?_) hboot evs hevs
  cases s with
  | none => trivial
  | some l =>
    cases ev with
    | forward b => exact noCpuWork_of_idle hflags honly hpool hcard (hs l rfl) b
    | tick ctl ev => trivial

end Runs

/-- Six experts in GPU-only mode, selective prefetching off. -/
def servedGpuOnly : Serving 6 ℚ where
  env := { Env.unset with ktGpuOnly := true }
  flags := { selective := false }
  adaptive := false
  table := true
  gpuPrefillTokenThreshold := 64
  srt := Argsort.stable
  topk := Argsort.stable
  cpu := CpuKernel.strict 6

/-- A token routed to the last two of six experts. -/
def lastTwo : RouterRow 6 2 ℚ where
  ids j := ⟨j + 4, by omega⟩
  weights _ := 1 / 2
  distinct i j h := Fin.ext (by simpa using congrArg Fin.val h)
  nonneg _ := by norm_num
  scores _ := 0
  finite _ := finfoMin_neg
  keepK := 2

theorem forwards_noCpuWork_lastTwo :
    StepsMeet (Layer.serve servedGpuOnly ⟨Argsort.stable, Argsort.stable, sigmoidZero⟩)
      (OnBatches fun (l : Layer 6 2) b => l.NoCpuWork servedGpuOnly ⟨Argsort.stable, Argsort.stable, sigmoidZero⟩ b)
      (some (Layer.boot 2 (Method.boot servedGpuOnly.env false none 0 {0, 1, 2, 3})))
      [.forward ⟨[.plain [4]], [lastTwo]⟩, .forward ⟨[], [lastTwo]⟩] := by
  refine forwards_noCpuWork servedGpuOnly ⟨Argsort.stable, Argsort.stable, sigmoidZero⟩ false rfl rfl rfl none
    {0, 1, 2, 3} (by decide) [.forward ⟨[.plain [4]], [lastTwo]⟩, .forward ⟨[], [lastTwo]⟩] ?_
  simp [RouterEvent.KeepsTiers]

end ExpertServe
