import ExpertServe.Policy.BatchLaws
import ExpertServe.Residency.Streams
import ExpertServe.Tick.Homes

/-!
# Staging honesty

Which experts the CPU store stages is settled at load by one of three masks: the RAM tier under a RAM limit, every
expert under the adaptive cache, and otherwise the experts off the GPU. What is read out of the store later is
settled elsewhere: the CPU kernel computes every id its pinned skip mask lets through, a bulk prefill and a full
restage stream experts into the scratch layer, and the dynamic expert update after a bulk prefill moves the GPU
set whether or not the departing experts were staged.

* `Server.serve`: bulk prefills, hybrid forwards, adaptive ticks and energy ticks of a server, under any options;
* `Server.ReadsStaged`: what a step reads out of the store is staged there;
* `Server.KeepsToStaged`: the step takes none of the paths that assume more to be staged than is;
* `serve_readsStaged`: a run from boot whose steps keep to what is staged reads staged experts only, and no other
  run does, as long as no expert moves between disk and host RAM.
-/

namespace ExpertServe

open Lib

variable {E L : ℕ} {α : Type*} [Field α] [LinearOrder α]

/-! ## Serving -/

/-- The options a server is booted with, and what its layers are served with. -/
structure KTServing (E : ℕ) (α : Type*) [Field α] [LinearOrder α] where
  env : Env α
  /-- `_KT_ADAPTIVE_ENABLED`. -/
  adaptive : Bool
  gpuPrefillTokenThreshold : Option ℤ
  ktEnableDynamicExpertUpdate : Bool
  quant : Quant
  fullGpuFallbackSupported : Bool
  policy : CachePolicy α
  srt : Argsort (Fin E) α
  topk : Argsort (Fin E) ℕ
  cpu : CpuKernel E

/-- A batch as one layer sees it: its size, its routed ids, those of them a prediction landed for it, and what the
expert cache knows once it has seen it. -/
structure ServedBatch (E : ℕ) (α : Type*) where
  numTokens : ℕ
  topkIds : List (Fin E)
  landed : Finset (Fin E)
  cache : CacheState E α

namespace KTServing

/-- `gpu_prefill_token_threshold` as `__init__` leaves it: a RAM limit disables the bulk prefill. -/
def prefillThreshold (c : KTServing E α) : ℤ :=
  let threshold := c.gpuPrefillTokenThreshold.getD 0
  if c.env.tierEnabled ∧ 0 < threshold then 0 else threshold

/-- `apply` hands the batch to the full-GPU context. -/
def BulkPrefills (c : KTServing E α) (b : ServedBatch E α) : Prop :=
  0 < c.prefillThreshold ∧ c.prefillThreshold ≤ b.numTokens ∧ c.fullGpuFallbackSupported = true

instance (c : KTServing E α) (b : ServedBatch E α) : Decidable (c.BulkPrefills b) :=
  inferInstanceAs (Decidable (_ ∧ _ ∧ _))

/-- `_update_gpu_experts_from_batch`: the GPU set becomes the selection, out of the scratch layer the prefill has
filled. -/
def updateGpuExpertsFromBatch (c : KTServing E α) (b : ServedBatch E α) (m : Method E) : Method E :=
  let selected := selectExperts c.policy c.topk c.srt b.topkIds b.cache m.gpuExpertsMask m.numGpuExperts
  (changeGpuSet c.env c.quant true m.store false selected m).2

/-- What `apply` leaves of a layer; MXFP4 skips the dynamic update. -/
def forward (c : KTServing E α) (b : ServedBatch E α) (m : Method E) : Method E :=
  if c.BulkPrefills b ∧ c.ktEnableDynamicExpertUpdate ∧ c.quant ≠ .mxfp4 then c.updateGpuExpertsFromBatch b m else m

/-- The experts the CPU kernel reads for a batch: the submitted ids its pinned mask lets through. A landed expert is
submitted as -1. -/
def cpuReads (c : KTServing E α) (b : ServedBatch E α) (m : Method E) : Finset (Fin E) :=
  match m.wrapper with
  | none => ∅
  | some w => b.topkIds.toFinset.filter fun e =>
      c.cpu.shouldSkipExpert w.gpuExpertsMask (if e ∈ b.landed then -1 else e) = false

/-- The experts `apply` reads out of the CPU store. -/
def forwardReads (c : KTServing E α) (b : ServedBatch E α) (m : Method E) : Finset (Fin E) :=
  if c.BulkPrefills b then streamed c.quant m.gpuExpertsMask none else c.cpuReads b m

end KTServing

/-! ## What the ticks read -/

/-- The selection of an adaptive tick outside the dynamic tier: the current set, if it raises. -/
def adaptiveSelected (env : Env α) (srt : Argsort (Fin E) α) (ev : AdaptiveEvent E α) (ctl : Ctl α) (m : Method E) :
    List (Fin E) :=
  if ev.raised then whereTrue m.gpuExpertsMask
  else (ktAdaptiveSelect env srt ctl ev.counts m.gpuExpertsMask m.numGpuExperts).1

/-- The experts an adaptive tick reads out of the CPU store. -/
def adaptiveReads (env : Env α) (q : Quant) (srt : Argsort (Fin E) α) (ev : AdaptiveEvent E α) (ctl : Ctl α)
    (m : Method E) : Finset (Fin E) :=
  if env.tierEnabled ∧ env.ktTierDynamic then
    changeReads env q ev.ctxBuilt m.store (env.ktTierIncremental ≠ 0)
      (whereTrue (tierPlan env srt ev.toTierEvent m).1) m
  else if env.tierEnabled ∧ ((m.gpuExpertsMask ∪ m.ramExpertsMask)ᶜ).card ≠ 0 then ∅
  else if m.numGpuExperts = 0 then ∅
  else if m.gpuExpertsMask.card ≠ m.numGpuExperts then ∅
  else changeReads env q ev.ctxBuilt m.store (env.ktAdaptiveIncremental ≠ 0) (adaptiveSelected env srt ev ctl m) m

/-- The experts of one layer an energy tick reads out of the CPU store, once its moves are done. -/
def energyReads (env : Env α) (q : Quant) (srt : Argsort (Fin E) α) (ev : EnergyEvent E L α) (s : Server E L α)
    (i : Fin L) : Finset (Fin E) :=
  if i ∈ (energyTodo env s ev.allE).2 then
    let m := s.moved env ev i
    let sel := energyGpuSelect srt (ev.allE i) m
    if sel.length ≠ (whereTrue m.gpuExpertsMask).length then ∅ else changeReads env q false m.store false sel m
  else ∅

/-! ## Runs of a server -/

/-- What happens to a server: a batch passes a layer, or one of the two movers ticks. -/
inductive ServeEvent (E L : ℕ) (α : Type*) where
  | forward (i : Fin L) (b : ServedBatch E α)
  | adaptive (i : Fin L) (ev : AdaptiveEvent E α)
  | energy (ev : EnergyEvent E L α)

/-- One step. Without the adaptive cache no layer is registered with the movers. -/
def Server.serve (c : KTServing E α) (s : Server E L α) : ServeEvent E L α → Server E L α
  | .forward i b => s.setLayer i (s.ctl, c.forward b (s.methods i))
  | .adaptive i ev => if c.adaptive then s.tick c.env c.quant c.srt (.adaptive i ev) else s
  | .energy ev => if c.adaptive then s.tick c.env c.quant c.srt (.energy ev) else s

/-- What the step reads out of the CPU store is staged there. -/
def Server.ReadsStaged (c : KTServing E α) (s : Server E L α) : ServeEvent E L α → Prop
  | .forward i b => c.forwardReads b (s.methods i) ⊆ (s.methods i).store
  | .adaptive i ev => c.adaptive = true → adaptiveReads c.env c.quant c.srt ev s.ctl (s.methods i) ⊆ (s.methods i).store
  | .energy ev => c.adaptive = true → ∀ i, energyReads c.env c.quant c.srt ev s i ⊆ (s.moved c.env ev i).store

/-- Under a RAM limit a change of the GPU set streams nobody who is not in host RAM: it changes nothing, or is made in
place, or takes the residents from the decode layer while nobody is on disk. -/
def RestageKeeps (env : Env α) (q : Quant) (incremental : Bool) (selected : Finset (Fin E)) (m : Method E) : Prop :=
  selected = m.gpuExpertsMask ∨ SwapsInPlace env q incremental selected m ∨
    (q.takesResidents = true ∧ m.gpuExpertsMask ∪ m.ramExpertsMask = Finset.univ)

/-- The step assumes no more to be staged than is, for a server that booted with the GPU sets `gpuMask`.

Without a RAM limit and without the adaptive cache the experts of the boot GPU set are not staged: a bulk prefill must
take residents from the decode layer and find the whole boot set resident, and a hybrid forward must route no expert
that has left it. Under a RAM limit the movers must not restage a layer from a store that lacks the SSD tier; without
one the energy mover must not evict at all. -/
def Server.KeepsToStaged (c : KTServing E α) (gpuMask : Fin L → Finset (Fin E)) (s : Server E L α) :
    ServeEvent E L α → Prop
  | .forward i b => c.env.tierEnabled = true ∨ c.adaptive = true ∨
      if c.BulkPrefills b then
        gpuMask i = ∅ ∨ (c.quant.takesResidents = true ∧ gpuMask i ⊆ (s.methods i).gpuExpertsMask)
      else ∀ e ∈ b.topkIds, e ∉ b.landed → e ∈ gpuMask i → e ∈ (s.methods i).gpuExpertsMask
  | .adaptive i ev => c.adaptive = true → c.env.tierEnabled = true →
      if c.env.ktTierDynamic then
        RestageKeeps c.env c.quant (c.env.ktTierIncremental ≠ 0) (tierPlan c.env c.srt ev.toTierEvent (s.methods i)).1
          (s.methods i)
      else (s.methods i).gpuExpertsMask ∪ (s.methods i).ramExpertsMask ≠ Finset.univ ∨
        RestageKeeps c.env c.quant (c.env.ktAdaptiveIncremental ≠ 0)
          (adaptiveSelected c.env c.srt ev s.ctl (s.methods i)).toFinset (s.methods i)
  | .energy ev => c.adaptive = true →
      if c.env.tierEnabled then ∀ i ∈ (energyTodo c.env s ev.allE).2,
        (energyGpuSelect c.srt (ev.allE i) (s.moved c.env ev i)).toFinset = (s.methods i).gpuExpertsMask
      else (energyTodo c.env s ev.allE).1 = []

/-- What holds of a layer that booted with the GPU set `gpuMask`. Under a RAM limit the RAM tier is staged, and is all
that is where nothing moves between disk and host RAM; without one the store is that of boot. -/
structure StagedOk (c : KTServing E α) (gpuMask : Finset (Fin E)) (m : Method E) : Prop where
  ok : LayerOk c.env gpuMask.card m
  ram : c.env.tierEnabled = true → m.ramExpertsMask ⊆ m.store
  disjoint : c.env.tierEnabled = true → c.env.ktTierDynamic = true → Disjoint m.gpuExpertsMask m.ramExpertsMask
  static : c.env.tierEnabled = true → c.env.ktTierDynamic = false → c.env.ktEnergy = false →
    m.store = m.ramExpertsMask ∧ gpuMask.card + m.ramExpertsMask.card ≤ E
  twoTier : c.env.tierEnabled = false → m.store = if c.adaptive then Finset.univ else gpuMaskᶜ

/-! ## A forward -/

section Forward

variable {c : KTServing E α} {b : ServedBatch E α} {gpuMask : Finset (Fin E)} {m : Method E} {e : Fin E}

/-- A RAM limit disables the bulk prefill. -/
theorem not_bulkPrefills (htier : c.env.tierEnabled = true) : ¬ c.BulkPrefills b := by
  rintro ⟨hpos, -⟩
  unfold KTServing.prefillThreshold at hpos
  dsimp only at hpos
  split at hpos
  · exact absurd hpos (lt_irrefl 0)
  · next hoff => exact hoff ⟨htier, hpos⟩

/-- The CPU kernel reads what is routed, did not land, and is not masked by the current tiers. -/
theorem mem_cpuReads {n : ℕ} (hm : LayerOk c.env n m) :
    e ∈ c.cpuReads b m ↔ e ∈ b.topkIds ∧ e ∉ b.landed ∧ e ∉ m.ktCpuSkipMask c.env := by
  obtain ⟨w, hw⟩ := Option.isSome_iff_exists.mp (hm.wired.owner.mpr hm.tpRank)
  unfold KTServing.cpuReads
  rw [hw, ← hm.wired.mask w hw]
  dsimp only
  rw [Finset.mem_filter, List.mem_toFinset]
  refine and_congr_right fun _ => ?_
  by_cases hland : e ∈ b.landed
  · rw [if_pos hland, c.cpu.skip_neg _ _ (by omega)]
    exact ⟨fun h => absurd h.symm Bool.false_ne_true, fun h => absurd hland h.1⟩
  · rw [if_neg hland, c.cpu.skip_expert, decide_eq_false_iff_not]
    exact ⟨fun h => ⟨hland, h⟩, fun h => h.2⟩

/-- A forward leaves a layer in order, whatever it selects. -/
theorem forward_stagedOk (h : StagedOk c gpuMask m) : StagedOk c gpuMask (c.forward b m) := by
  unfold KTServing.forward
  by_cases hupdate : c.BulkPrefills b ∧ c.ktEnableDynamicExpertUpdate ∧ c.quant ≠ .mxfp4
  swap
  · rw [if_neg hupdate]
    exact h
  have hlimit : c.env.tierEnabled ≠ true := fun htier => not_bulkPrefills htier hupdate.1
  rw [if_pos hupdate]
  unfold KTServing.updateGpuExpertsFromBatch
  dsimp only
  have hnum : m.numGpuExperts = m.gpuExpertsMask.card := by
    obtain ⟨t, -, -, hnum⟩ := id h.ok.seats
    exact hnum.trans h.ok.seats.card_mask.symm
  obtain ⟨sel, hsel, hcard⟩ := selectExperts_spec c.srt b.cache m.gpuExpertsMask c.policy c.topk b.topkIds
  rw [hnum, hsel]
  have hlen : (whereTrue sel).length = gpuMask.card := by
    rw [length_whereTrue, hcard, h.ok.seats.card_mask]
  obtain ⟨-, hseats, -, hram, hwired, -⟩ :=
    changeGpuSet_spec c.env true false m.store c.quant h.ok.seats (whereTrue_nodup sel) hlen
  exact ⟨⟨hseats, hwired h.ok.wired, hram.tpRank.trans h.ok.tpRank⟩, fun ht => absurd ht hlimit,
    fun ht => absurd ht hlimit, fun ht => absurd ht hlimit, fun htwo => hram.store.trans (h.twoTier htwo)⟩

/-- Without a RAM limit and without the adaptive cache, a stream reads staged experts only if nobody of the boot GPU
set is among those it reads. -/
theorem streamed_none_subset_iff (q : Quant) (gpuMask current : Finset (Fin E)) :
    streamed q current none ⊆ gpuMaskᶜ ↔ gpuMask = ∅ ∨ (q.takesResidents = true ∧ gpuMask ⊆ current) := by
  rw [streamed_none]
  by_cases hq : q.takesResidents = true
  · rw [if_pos hq, Finset.compl_subset_compl]
    exact ⟨fun hsub => Or.inr ⟨hq, hsub⟩, fun h => h.elim (fun hnone => hnone ▸ Finset.empty_subset _) And.right⟩
  · rw [if_neg hq, Finset.univ_subset_iff, Finset.compl_eq_univ_iff]
    exact ⟨Or.inl, fun h => h.resolve_right fun h => hq h.1⟩

/-- **One forward** reads staged experts only, exactly under the condition. -/
theorem forwardReads_staged_iff (h : StagedOk c gpuMask m) :
    c.forwardReads b m ⊆ m.store ↔ c.env.tierEnabled = true ∨ c.adaptive = true ∨
      if c.BulkPrefills b then gpuMask = ∅ ∨ (c.quant.takesResidents = true ∧ gpuMask ⊆ m.gpuExpertsMask)
      else ∀ e ∈ b.topkIds, e ∉ b.landed → e ∈ gpuMask → e ∈ m.gpuExpertsMask := by
  unfold KTServing.forwardReads
  by_cases htier : c.env.tierEnabled = true
  · refine ⟨fun _ => Or.inl htier, fun _ => ?_⟩
    rw [if_neg (not_bulkPrefills htier)]
    intro e he
    have hskip := ((mem_cpuReads h.ok).mp he).2.2
    rw [Method.ktCpuSkipMask, if_pos htier, Finset.mem_compl, not_not] at hskip
    exact h.ram htier hskip
  have hstore := h.twoTier (Bool.eq_false_iff.mpr htier)
  by_cases hadaptive : c.adaptive = true
  · rw [hstore, if_pos hadaptive]
    exact ⟨fun _ => Or.inr (Or.inl hadaptive), fun _ => Finset.subset_univ _⟩
  rw [if_neg hadaptive] at hstore
  rw [hstore, or_iff_right htier, or_iff_right hadaptive]
  by_cases hbulk : c.BulkPrefills b
  · rw [if_pos hbulk, if_pos hbulk]
    exact streamed_none_subset_iff c.quant gpuMask m.gpuExpertsMask
  · rw [if_neg hbulk, if_neg hbulk]
    simp only [Finset.subset_iff, mem_cpuReads h.ok, Finset.mem_compl, Method.ktCpuSkipMask, htier]
    exact ⟨fun hall e hid hland hboot => by_contra fun hoff => hall ⟨hid, hland, hoff⟩ hboot,
      fun hall e he hboot => he.2.2 (hall e he.1 he.2.1 hboot)⟩

end Forward

/-! ## An adaptive tick -/

section Adaptive

variable {c : KTServing E α} {ev : AdaptiveEvent E α} {ctl : Ctl α} {gpuMask : Finset (Fin E)} {m : Method E}

/-- An adaptive tick leaves a layer in order. -/
theorem adaptive_stagedOk (h : StagedOk c gpuMask m) :
    StagedOk c gpuMask (ktAdaptiveUpdateLayer c.env c.quant c.srt ev ctl m).2 := by
  by_cases hdyn : c.env.tierEnabled ∧ c.env.ktTierDynamic
  · have hdisj := h.disjoint hdyn.1 hdyn.2
    have happlied := ktTierUpdateLayer_applied c.quant c.srt ev.toTierEvent h.ok.seats h.ok.wired hdisj
    rw [ktAdaptiveUpdateLayer_dynamic hdyn]
    exact ⟨⟨happlied.seats, happlied.wired, happlied.tpRank.trans h.ok.tpRank⟩,
      fun htier => happlied.staged h.ok.tpRank (h.ram htier),
      fun _ _ => disjoint_of_applied c.quant c.srt ev.toTierEvent hdisj happlied,
      fun _ hstatic => absurd (hstatic.symm.trans hdyn.2) Bool.false_ne_true,
      fun htwo => absurd (htwo.symm.trans hdyn.1) Bool.false_ne_true⟩
  · have hticked : AdaptiveTicked c.env c.quant ev ctl gpuMask.card m
        (ktAdaptiveUpdateLayer c.env c.quant c.srt ev ctl m).2 := ktAdaptiveUpdateLayer_spec h.ok.seats hdyn
    refine ⟨⟨hticked.seats, hticked.wired h.ok.wired, hticked.ram.tpRank.trans h.ok.tpRank⟩, fun htier => ?_,
      fun htier hd => absurd ⟨htier, hd⟩ hdyn, fun htier hs he => ?_, fun htwo => ?_⟩
    · rw [hticked.ram.ramMask, hticked.ram.store]
      exact h.ram htier
    · rw [hticked.ram.ramMask, hticked.ram.store]
      exact h.static htier hs he
    · rw [hticked.ram.store]
      exact h.twoTier htwo

/-- The selection of an adaptive tick has the size of the GPU set. -/
theorem adaptiveSelected_spec (h : StagedOk c gpuMask m) (ev : AdaptiveEvent E α) (ctl : Ctl α) :
    ∃ sel : Finset (Fin E), adaptiveSelected c.env c.srt ev ctl m = whereTrue sel ∧
      sel.card = m.gpuExpertsMask.card := by
  unfold adaptiveSelected
  split
  · exact ⟨_, rfl, rfl⟩
  · obtain ⟨t, -, -, hnum⟩ := id h.ok.seats
    obtain ⟨sel, hsel, hcard, -⟩ := ktAdaptiveSelect_spec c.env c.srt ctl ev.counts m.gpuExpertsMask
    rw [hnum, ← h.ok.seats.card_mask]
    exact ⟨sel, hsel, hcard⟩

/-- Under a RAM limit a restage that keeps to host RAM reads staged experts only. -/
theorem changeReads_staged (h : StagedOk c gpuMask m) (htier : c.env.tierEnabled = true) {sel : Finset (Fin E)}
    (hcard : sel.card = m.gpuExpertsMask.card) (hfrom : sel \ m.gpuExpertsMask ⊆ m.ramExpertsMask) (ctxBuilt : Bool)
    {incremental : Bool} (hkeeps : RestageKeeps c.env c.quant incremental sel m) :
    changeReads c.env c.quant ctxBuilt m.store incremental (whereTrue sel) m ⊆ m.store := by
  obtain ⟨t, ht, -, -⟩ := h.ok.seats
  rw [changeReads_eq c.env c.quant ctxBuilt m.store incremental ht (whereTrue_nodup sel)
    (by rw [whereTrue_toFinset, hcard]), whereTrue_toFinset]
  by_cases hsame : sel = m.gpuExpertsMask
  · rw [if_pos hsame]
    exact Finset.empty_subset _
  rw [if_neg hsame]
  by_cases hplace : SwapsInPlace c.env c.quant incremental sel m
  · rw [if_pos hplace]
    exact hfrom.trans (h.ram htier)
  · obtain ⟨htakes, hall⟩ := (hkeeps.resolve_left hsame).resolve_left hplace
    rw [if_neg hplace, streamed_none, if_pos htakes]
    intro e he
    have hhome : e ∈ m.gpuExpertsMask ∪ m.ramExpertsMask := hall ▸ Finset.mem_univ e
    exact h.ram htier ((Finset.mem_union.mp hhome).resolve_left (Finset.mem_compl.mp he))

/-- An adaptive tick that keeps to what is staged reads staged experts only. -/
theorem adaptiveReads_staged (h : StagedOk c gpuMask m) (hadaptive : c.adaptive = true)
    (hkeeps : c.env.tierEnabled = true →
      if c.env.ktTierDynamic then
        RestageKeeps c.env c.quant (c.env.ktTierIncremental ≠ 0) (tierPlan c.env c.srt ev.toTierEvent m).1 m
      else m.gpuExpertsMask ∪ m.ramExpertsMask ≠ Finset.univ ∨
        RestageKeeps c.env c.quant (c.env.ktAdaptiveIncremental ≠ 0)
          (adaptiveSelected c.env c.srt ev ctl m).toFinset m) :
    adaptiveReads c.env c.quant c.srt ev ctl m ⊆ m.store := by
  by_cases htier : c.env.tierEnabled = true
  swap
  · rw [h.twoTier (Bool.eq_false_iff.mpr htier), if_pos hadaptive]
    exact Finset.subset_univ _
  have hkeeps := hkeeps htier
  unfold adaptiveReads
  by_cases hdyn : c.env.ktTierDynamic = true
  · have hdisj := h.disjoint htier hdyn
    rw [if_pos hdyn] at hkeeps
    rw [if_pos ⟨htier, hdyn⟩]
    exact changeReads_staged h htier (card_tierPlan_fst hdisj) (tierPlan_ladder hdisj) ev.ctxBuilt hkeeps
  rw [if_neg hdyn] at hkeeps
  rw [if_neg fun hc => hdyn hc.2]
  simp only [card_ssd_ne_zero_iff]
  by_cases hssd : m.gpuExpertsMask ∪ m.ramExpertsMask ≠ Finset.univ
  · rw [if_pos ⟨htier, hssd⟩]
    exact Finset.empty_subset _
  rw [if_neg fun hc => hssd hc.2]
  split
  · exact Finset.empty_subset _
  split
  · exact Finset.empty_subset _
  obtain ⟨sel, hsel, hcard⟩ := adaptiveSelected_spec h ev ctl
  have hrestage := hkeeps.resolve_left hssd
  rw [hsel, whereTrue_toFinset] at hrestage
  rw [hsel]
  refine changeReads_staged h htier hcard (fun e he => ?_) ev.ctxBuilt hrestage
  have hhome : e ∈ m.gpuExpertsMask ∪ m.ramExpertsMask := not_not.mp hssd ▸ Finset.mem_univ e
  exact (Finset.mem_union.mp hhome).resolve_left (Finset.mem_sdiff.mp he).2

/-- Where nothing moves between disk and host RAM, a restage that reads staged experts only keeps to host RAM. -/
theorem restageKeeps_of_reads (h : StagedOk c gpuMask m) (htier : c.env.tierEnabled = true)
    (hstatic : c.env.ktTierDynamic = false) (hidle : c.env.ktEnergy = false)
    (hall : m.gpuExpertsMask ∪ m.ramExpertsMask = Finset.univ) {sel : Finset (Fin E)}
    (hcard : sel.card = m.gpuExpertsMask.card) {ctxBuilt incremental : Bool}
    (hreads : changeReads c.env c.quant ctxBuilt m.store incremental (whereTrue sel) m ⊆ m.store) :
    RestageKeeps c.env c.quant incremental sel m := by
  obtain ⟨t, ht, -, -⟩ := h.ok.seats
  rw [changeReads_eq c.env c.quant ctxBuilt m.store incremental ht (whereTrue_nodup sel)
    (by rw [whereTrue_toFinset, hcard]), whereTrue_toFinset] at hreads
  by_cases hsame : sel = m.gpuExpertsMask
  · exact Or.inl hsame
  by_cases hplace : SwapsInPlace c.env c.quant incremental sel m
  · exact Or.inr (Or.inl hplace)
  refine Or.inr (Or.inr ⟨by_contra fun htakes => hsame ?_, hall⟩)
  -- the stream reads every expert, and the store holds the RAM tier, so nobody is on the GPU
  rw [if_neg hsame, if_neg hplace, streamed_none, if_neg htakes, Finset.univ_subset_iff] at hreads
  obtain ⟨hstore, hfit⟩ := h.static htier hstatic hidle
  rw [← hstore, hreads, Finset.card_univ, Fintype.card_fin] at hfit
  have hgpu := h.ok.seats.card_mask
  have hnone : m.gpuExpertsMask = ∅ := Finset.card_eq_zero.mp (by omega)
  rw [hnone, Finset.card_empty, Finset.card_eq_zero] at hcard
  rw [hcard, hnone]

/-- Where nothing moves between disk and host RAM, an adaptive tick that reads staged experts only keeps to them. -/
theorem adaptiveKeeps_of_reads (h : StagedOk c gpuMask m) (htier : c.env.tierEnabled = true)
    (hstatic : c.env.ktTierDynamic = false) (hidle : c.env.ktEnergy = false)
    (hreads : adaptiveReads c.env c.quant c.srt ev ctl m ⊆ m.store) :
    m.gpuExpertsMask ∪ m.ramExpertsMask ≠ Finset.univ ∨
      RestageKeeps c.env c.quant (c.env.ktAdaptiveIncremental ≠ 0)
        (adaptiveSelected c.env c.srt ev ctl m).toFinset m := by
  by_cases hssd : m.gpuExpertsMask ∪ m.ramExpertsMask ≠ Finset.univ
  · exact Or.inl hssd
  obtain ⟨sel, hsel, hcard⟩ := adaptiveSelected_spec h ev ctl
  obtain ⟨t, -, -, hnum⟩ := id h.ok.seats
  have hmask := h.ok.seats.card_mask
  unfold adaptiveReads at hreads
  rw [if_neg fun hc => Bool.false_ne_true (hstatic.symm.trans hc.2)] at hreads
  simp only [card_ssd_ne_zero_iff] at hreads
  rw [if_neg fun hc => hssd hc.2] at hreads
  rw [hsel, whereTrue_toFinset]
  refine Or.inr ?_
  by_cases hzero : m.numGpuExperts = 0
  · have hnone : m.gpuExpertsMask = ∅ := Finset.card_eq_zero.mp (by omega)
    rw [hnone, Finset.card_empty, Finset.card_eq_zero] at hcard
    exact Or.inl (hcard.trans hnone.symm)
  · rw [if_neg hzero, if_neg (by omega), hsel] at hreads
    exact restageKeeps_of_reads h htier hstatic hidle (not_not.mp hssd) hcard hreads

end Adaptive

/-! ## An energy tick -/

section Energy

variable {c : KTServing E α} {ev : EnergyEvent E L α} {gpuMask : Fin L → Finset (Fin E)} {s : Server E L α}

/-- With the energy mover off there is nothing to do. -/
theorem energyTodo_off {env : Env α} (hoff : env.ktEnergy = false) (allE : Fin L → Fin E → α) :
    energyTodo env s allE = ([], []) := by
  unfold energyTodo energyDue
  rw [hoff]
  rfl

/-- A tick that moves nobody between disk and host RAM finds every layer as it was when it restages. -/
theorem moved_of_noPromotion {env : Env α} (hnone : (energyTodo env s ev.allE).1 = []) (i : Fin L) :
    s.moved env ev i = s.methods i := moved_of_notMem fun _ hp => absurd (hnone ▸ hp) List.not_mem_nil

/-- An energy tick that keeps to what is staged leaves every layer in order, and reads staged experts only. -/
theorem energy_stagedOk (hs : ∀ i, StagedOk c (gpuMask i) (s.methods i)) (hadaptive : c.adaptive = true)
    (hkeeps : if c.env.tierEnabled then ∀ i ∈ (energyTodo c.env s ev.allE).2,
        (energyGpuSelect c.srt (ev.allE i) (s.moved c.env ev i)).toFinset = (s.methods i).gpuExpertsMask
      else (energyTodo c.env s ev.allE).1 = []) (i : Fin L) :
    StagedOk c (gpuMask i) ((s.tick c.env c.quant c.srt (.energy ev)).methods i) ∧
      energyReads c.env c.quant c.srt ev s i ⊆ (s.moved c.env ev i).store := by
  have hspec : EnergyTicked c.env c.quant c.srt ev s i ((s.tick c.env c.quant c.srt (.energy ev)).methods i) :=
    ktEnergyOnDecodeStep_spec i
  have hok : LayerOk c.env (gpuMask i).card ((s.tick c.env c.quant c.srt (.energy ev)).methods i) :=
    ktEnergyOnDecodeStep_layerOk _ (hs i).ok
  by_cases htier : c.env.tierEnabled = true
  · rw [if_pos htier] at hkeeps
    refine ⟨⟨hok, fun _ => ?_, fun _ hdyn => ?_, fun _ hstatic hidle => ?_, fun htwo => ?_⟩, ?_⟩
    · rw [hspec.ram.ramMask, hspec.ram.store]
      exact moved_staged i (hs i).ok.wired (hs i).ok.tpRank ((hs i).ram htier)
    · exact (ktEnergyOnDecodeStep_disjoint_iff _ (hs i).ok ((hs i).disjoint htier hdyn)).2.mpr (Or.inr (hkeeps i))
    · rw [hspec.ram.ramMask, hspec.ram.store, moved_of_noPromotion (by rw [energyTodo_off hidle]) i]
      exact (hs i).static htier hstatic hidle
    · exact absurd (htwo.symm.trans htier) Bool.false_ne_true
    · unfold energyReads
      split
      · next hi =>
        have hmask : (s.moved c.env ev i).gpuExpertsMask = (s.methods i).gpuExpertsMask := (moved_sameTables i).mask
        have hsame := (hkeeps i hi).trans hmask.symm
        dsimp only
        split
        · exact Finset.empty_subset _
        · unfold changeReads
          rw [if_pos ((whereTrue_perm_iff energyGpuSelect_nodup).mpr hsame)]
          exact Finset.empty_subset _
      · exact Finset.empty_subset _
  · rw [if_neg htier] at hkeeps
    have hmoved : s.moved c.env ev i = s.methods i := moved_of_noPromotion hkeeps i
    have hstore := (hs i).twoTier (Bool.eq_false_iff.mpr htier)
    refine ⟨⟨hok, fun ht => absurd ht htier, fun ht => absurd ht htier, fun ht => absurd ht htier, fun _ => ?_⟩, ?_⟩
    · rw [hspec.ram.store, hmoved]
      exact hstore
    · rw [hmoved, hstore, if_pos hadaptive]
      exact Finset.subset_univ _

end Energy

/-! ## Runs -/

section Runs

variable {c : KTServing E α} {gpuMask : Fin L → Finset (Fin E)} {s : Server E L α}

/-- Without the adaptive cache a tick of either mover does nothing. -/
theorem serve_adaptive_off (hoff : c.adaptive ≠ true) (i : Fin L) (ev : AdaptiveEvent E α) :
    s.serve c (.adaptive i ev) = s := if_neg hoff

theorem serve_energy_off (hoff : c.adaptive ≠ true) (ev : EnergyEvent E L α) : s.serve c (.energy ev) = s := if_neg hoff

/-- A forward, whatever it reads, leaves every layer in order. -/
theorem serve_forward_stagedOk (hs : ∀ i, StagedOk c (gpuMask i) (s.methods i)) (i : Fin L) (b : ServedBatch E α) :
    ∀ j, StagedOk c (gpuMask j) ((s.serve c (.forward i b)).methods j) :=
  (Server.forall_setLayer_iff (fun i m => StagedOk c (gpuMask i) m) i _ hs).mpr (forward_stagedOk (hs i))

/-- So does an adaptive tick. -/
theorem serve_adaptive_stagedOk (hs : ∀ i, StagedOk c (gpuMask i) (s.methods i)) (i : Fin L) (ev : AdaptiveEvent E α) :
    ∀ j, StagedOk c (gpuMask j) ((s.serve c (.adaptive i ev)).methods j) := by
  by_cases hadaptive : c.adaptive = true
  · have hserve : s.serve c (.adaptive i ev) = s.tick c.env c.quant c.srt (.adaptive i ev) := if_pos hadaptive
    rw [hserve]
    exact (Server.forall_setLayer_iff (fun i m => StagedOk c (gpuMask i) m) i _ hs).mpr (adaptive_stagedOk (hs i))
  · rw [serve_adaptive_off hadaptive]
    exact hs

/-- **One step** that keeps to what is staged reads staged experts only and leaves every layer in order. -/
theorem serve_step (hs : ∀ i, StagedOk c (gpuMask i) (s.methods i)) (e : ServeEvent E L α)
    (hkeeps : s.KeepsToStaged c gpuMask e) :
    (∀ i, StagedOk c (gpuMask i) ((s.serve c e).methods i)) ∧ s.ReadsStaged c e := by
  cases e with
  | forward i b => exact ⟨serve_forward_stagedOk hs i b, (forwardReads_staged_iff (hs i)).mpr hkeeps⟩
  | adaptive i ev =>
    exact ⟨serve_adaptive_stagedOk hs i ev,
      fun hadaptive => adaptiveReads_staged (hs i) hadaptive (hkeeps hadaptive)⟩
  | energy ev =>
    refine ⟨fun i => ?_, fun hadaptive i => (energy_stagedOk hs hadaptive (hkeeps hadaptive) i).2⟩
    by_cases hadaptive : c.adaptive = true
    · have hserve : s.serve c (.energy ev) = s.tick c.env c.quant c.srt (.energy ev) := if_pos hadaptive
      rw [hserve]
      exact (energy_stagedOk hs hadaptive (hkeeps hadaptive) i).1
    · rw [serve_energy_off hadaptive]
      exact hs i

/-- No expert moves between disk and host RAM: the movers are off, or neither of them touches the RAM tier. -/
def KTServing.RamStays (c : KTServing E α) : Prop :=
  c.adaptive = false ∨ (c.env.ktEnergy = false ∧ (c.env.tierEnabled = true → c.env.ktTierDynamic = false))

/-- What that says of a server with the adaptive cache. -/
theorem KTServing.RamStays.idle (h : c.RamStays) (hadaptive : c.adaptive = true) :
    c.env.ktEnergy = false ∧ (c.env.tierEnabled = true → c.env.ktTierDynamic = false) :=
  h.resolve_left fun hoff => Bool.false_ne_true (hoff.symm.trans hadaptive)

/-- Where no expert moves between disk and host RAM, every step leaves every layer in order, and one that reads
staged experts only keeps to what is staged. -/
theorem serve_step_exact (hstays : c.RamStays) (hs : ∀ i, StagedOk c (gpuMask i) (s.methods i)) (e : ServeEvent E L α) :
    (∀ i, StagedOk c (gpuMask i) ((s.serve c e).methods i)) ∧ (s.ReadsStaged c e → s.KeepsToStaged c gpuMask e) := by
  cases e with
  | forward i b => exact ⟨serve_forward_stagedOk hs i b, (forwardReads_staged_iff (hs i)).mp⟩
  | adaptive i ev =>
    refine ⟨serve_adaptive_stagedOk hs i ev, fun hreads hadaptive htier => ?_⟩
    obtain ⟨hidle, hstatic⟩ := hstays.idle hadaptive
    rw [if_neg fun h => Bool.false_ne_true ((hstatic htier).symm.trans h)]
    exact adaptiveKeeps_of_reads (hs i) htier (hstatic htier) hidle (hreads hadaptive)
  | energy ev =>
    have hkeeps : s.KeepsToStaged c gpuMask (.energy ev) := by
      intro hadaptive
      rw [energyTodo_off (hstays.idle hadaptive).1]
      split
      · exact fun i hi => absurd hi List.not_mem_nil
      · rfl
    exact ⟨(serve_step hs (.energy ev) hkeeps).1, fun _ => hkeeps⟩

omit [LinearOrder α] in
theorem card_boot_le (env : Env α) (adaptive : Bool) (ranking : Option (List (Fin E))) (gpuMask : Finset (Fin E)) :
    gpuMask.card + (Method.boot env adaptive ranking 0 gpuMask).ramExpertsMask.card ≤ E := by
  have hdisj : Disjoint gpuMask (Method.boot env adaptive ranking 0 gpuMask).ramExpertsMask :=
    Method.boot_disjoint env adaptive ranking 0 gpuMask
  rw [← Finset.card_union_of_disjoint hdisj]
  exact (Finset.card_le_univ _).trans_eq (Fintype.card_fin E)

theorem boot_stagedOk (c : KTServing E α) (ranking : Option (List (Fin E))) (gpuMask : Finset (Fin E)) :
    StagedOk c gpuMask (Method.boot c.env c.adaptive ranking 0 gpuMask) := by
  have hstore : (Method.boot c.env c.adaptive ranking 0 gpuMask).store =
      loadStaged c.env c.adaptive gpuMask (Method.boot c.env c.adaptive ranking 0 gpuMask).ramExpertsMask := rfl
  refine ⟨boot_layerOk c.adaptive ranking gpuMask, fun _ => Method.boot_staged c.env c.adaptive ranking gpuMask,
    fun _ _ => Method.boot_disjoint c.env c.adaptive ranking 0 gpuMask,
    fun htier _ _ => ⟨?_, card_boot_le c.env c.adaptive ranking gpuMask⟩, fun htwo => ?_⟩
  · rw [hstore, loadStaged, if_pos htier]
  · rw [hstore, loadStaged, if_neg (by simp [htwo])]

/-- **Staging honesty.** From boot, for any options and any boot GPU sets, over any mix of bulk prefills with or without
the dynamic update, hybrid forwards, adaptive ticks and energy ticks: a run whose steps keep to what is staged reads
staged experts only. Where no expert moves between disk and host RAM, no other run does. -/
theorem serve_readsStaged (c : KTServing E α) (ranking : Fin L → Option (List (Fin E)))
    (gpuMask : Fin L → Finset (Fin E)) (es : List (ServeEvent E L α)) :
    (StepsMeet (Server.serve c) (Server.KeepsToStaged c gpuMask) (Server.boot c.env c.adaptive ranking gpuMask 0) es →
      StepsMeet (Server.serve c) (Server.ReadsStaged c) (Server.boot c.env c.adaptive ranking gpuMask 0) es) ∧
    (c.RamStays →
      (StepsMeet (Server.serve c) (Server.ReadsStaged c) (Server.boot c.env c.adaptive ranking gpuMask 0) es ↔
        StepsMeet (Server.serve c) (Server.KeepsToStaged c gpuMask)
          (Server.boot c.env c.adaptive ranking gpuMask 0) es)) := by
  have hboot : ∀ i, StagedOk c (gpuMask i)
      ((Server.boot c.env c.adaptive ranking gpuMask 0 : Server E L α).methods i) :=
    fun i => boot_stagedOk c (ranking i) (gpuMask i)
  constructor
  · exact fun h => h.imp_of_invariant (I := fun s => ∀ i, StagedOk c (gpuMask i) (s.methods i))
      (fun s e hs hkeeps => serve_step hs e hkeeps) hboot
  · intro hstays
    refine stepsMeet_congr (I := fun s => ∀ i, StagedOk c (gpuMask i) (s.methods i))
      (fun s e hs => (serve_step_exact hstays hs e).1) (fun s e hs => ?_) hboot es
    exact ⟨(serve_step_exact hstays hs e).2, fun hkeeps => (serve_step hs e hkeeps).2⟩

end Runs

/-- Four FP8 experts with the dynamic update on and a prefill threshold of 64 tokens; no RAM limit. -/
def servedUpdate (adaptive : Bool) : KTServing 4 ℚ where
  env := Env.unset
  adaptive := adaptive
  gpuPrefillTokenThreshold := some 64
  ktEnableDynamicExpertUpdate := true
  quant := .fp8
  fullGpuFallbackSupported := true
  policy := .weighted {}
  srt := Argsort.stable
  topk := Argsort.stable
  cpu := CpuKernel.strict 4

/-- A first batch of 64 tokens, each routed to experts 2 and 3 with equal weights. -/
def prefillTwoThree : ServedBatch 4 ℚ where
  numTokens := 64
  topkIds := (List.replicate 64 ((List.finRange 4).drop 2)).flatten
  landed := ∅
  cache := ⟨![0, 0, 192 / 5, 32], Finset.univ.filter fun e => 2 ≤ e.val⟩

/-- One token routed to experts 0 and 1. -/
def decodeZeroOne : ServedBatch 4 ℚ where
  numTokens := 1
  topkIds := (List.finRange 4).take 2
  landed := ∅
  cache := ⟨![0, 0, 192 / 5, 32], Finset.univ.filter fun e => 2 ≤ e.val⟩

theorem serve_readsStaged_adaptive :
    StepsMeet (Server.serve (servedUpdate true)) (Server.ReadsStaged (servedUpdate true))
      (Server.boot Env.unset true (fun _ => none) (fun _ : Fin 1 => {0, 1}) 0)
      [.forward 0 prefillTwoThree, .adaptive 0 adaptiveWantTwo, .forward 0 decodeZeroOne] := by
  refine (serve_readsStaged (servedUpdate true) (fun _ => none) (fun _ => {0, 1})
    [.forward 0 prefillTwoThree, .adaptive 0 adaptiveWantTwo, .forward 0 decodeZeroOne]).1 ?_
  exact ⟨Or.inr (Or.inl rfl), fun _ htier => absurd htier (by decide), Or.inr (Or.inl rfl), trivial⟩

/-- Without the adaptive cache the update evicts the boot residents, which no store holds, and the next token has the
CPU kernel compute them; under W4AFP8 the bulk prefill itself streams them out of the store. -/
theorem evicted_read_unstaged :
    (¬ StepsMeet (Server.serve (servedUpdate false)) (Server.ReadsStaged (servedUpdate false))
      (Server.boot Env.unset false (fun _ => none) (fun _ : Fin 1 => {0, 1}) 0)
      [.forward 0 prefillTwoThree, .forward 0 decodeZeroOne]) ∧
    ¬ StepsMeet (Server.serve { servedUpdate false with quant := .w4afp8 })
      (Server.ReadsStaged { servedUpdate false with quant := .w4afp8 })
      (Server.boot Env.unset false (fun _ => none) (fun _ : Fin 1 => {0, 1}) 0) [.forward 0 prefillTwoThree] := by
  constructor
  · rintro ⟨-, hread, -⟩
    have hstaged := hread (show (0 : Fin 4) ∈ _ by decide +kernel)
    revert hstaged
    decide +kernel
  · rintro ⟨hread, -⟩
    have hstaged := hread (Finset.mem_univ (0 : Fin 4))
    revert hstaged
    decide +kernel

end ExpertServe
