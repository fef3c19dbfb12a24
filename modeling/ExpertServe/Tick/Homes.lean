import ExpertServe.Forward.Sides
import ExpertServe.Tick.Adaptive
import ExpertServe.Tick.EnergyRanks
import ExpertServe.Tick.Honesty

/-!
# One home for every expert

The three controllers of the residency masks on the rank that owns the store, in any order: adaptive ticks and
tier ticks of single layers, energy ticks of all of them.

* `ExactlyOneHome`: the GPU and the RAM mask of a layer are disjoint, and every expert of the two is computed
  by exactly one side;
* `TickStays`: the tick does not take one of the two paths that change the GPU mask and leave the RAM mask as
  it is, the adaptive swap of a RAM-limited server without an SSD tier and the restage of an energy tick;
* `ticks_exactlyOneHome`: a run from boot keeps one home for every expert exactly when all its ticks stay.
-/

namespace ExpertServe

open Lib

variable {E L : ℕ} {α : Type*} [Field α] [LinearOrder α]

/-- A tick of one of the three controllers. -/
inductive Tick (E L : ℕ) (α : Type*) where
  | adaptive (i : Fin L) (ev : AdaptiveEvent E α)
  | tier (i : Fin L) (ev : TierEvent E α)
  | energy (ev : EnergyEvent E L α)

/-- The server with one layer and the margin controller replaced. -/
def Server.setLayer (s : Server E L α) (i : Fin L) (r : Ctl α × Method E) : Server E L α :=
  { s with ctl := r.1, methods := Function.update s.methods i r.2 }

/-- One tick on the rank that owns the store. -/
def Server.tick (env : Env α) (q : Quant) (srt : Argsort (Fin E) α) (s : Server E L α) : Tick E L α → Server E L α
  | .adaptive i ev => s.setLayer i (ktAdaptiveUpdateLayer env q srt ev s.ctl (s.methods i))
  | .tier i ev => s.setLayer i (s.ctl, ktTierUpdateLayer env q srt (s.methods i) ev)
  | .energy ev => ktEnergyOnDecodeStep env q srt (fun i => (s.moved env ev i).store) s ev

/-- The tiers of a layer are disjoint, and each of their experts is computed by exactly one side. -/
def ExactlyOneHome (cpu : CpuKernel E) (m : Method E) : Prop :=
  Disjoint m.gpuExpertsMask m.ramExpertsMask ∧
    ∀ e ∈ m.gpuExpertsMask ∪ m.ramExpertsMask, Xor (m.gpuRuns e) (m.cpuRuns cpu e)

/-- What holds of a layer of the owning rank between ticks, disjoint tiers or not. -/
structure LayerOk (env : Env α) (n : ℕ) (m : Method E) : Prop where
  seats : m.Seats n
  wired : m.Wired env
  tpRank : m.tpRank = 0

/-- The tick leaves the GPU set of every layer alone, or moves the RAM mask with it. -/
def TickStays (env : Env α) (q : Quant) (srt : Argsort (Fin E) α) (s : Server E L α) : Tick E L α → Prop
  | .adaptive i ev => ¬ swapsGpuSet env q ev s.ctl (s.methods i)
  | .tier _ _ => True
  | .energy ev => q = .mxfp4 ∨ ∀ i ∈ (energyTodo env s ev.allE).2,
      (energyGpuSelect srt (ev.allE i) (s.moved env ev i)).toFinset = (s.methods i).gpuExpertsMask

/-! ## One layer -/

section Layer

variable {env : Env α} {q : Quant} {srt : Argsort (Fin E) α} {n : ℕ} {m m' : Method E} {cpu : CpuKernel E}

omit [LinearOrder α] in
/-- Under a RAM limit the sides are as disjoint as the masks. -/
theorem exactlyOneHome_iff (htier : env.tierEnabled = true) (hm : LayerOk env n m) :
    ExactlyOneHome cpu m ↔ Disjoint m.gpuExpertsMask m.ramExpertsMask := by
  refine ⟨fun h => h.1, fun hdisj => ⟨hdisj, fun e he => ?_⟩⟩
  have hcpu : m.cpuRuns cpu e ↔ e ∈ m.ramExpertsMask := by
    rw [Method.cpuRuns_iff hm.wired hm.tpRank, Method.ktCpuSkipMask, if_pos htier, Finset.mem_compl, not_not]
  rw [Method.gpuRuns_iff hm.seats, hcpu]
  rcases Finset.mem_union.mp he with hgpu | hram
  · exact Or.inl ⟨hgpu, Finset.disjoint_left.mp hdisj hgpu⟩
  · exact Or.inr ⟨hram, Finset.disjoint_right.mp hdisj hram⟩

/-- A GPU set of the same size that is another one brings in somebody. -/
theorem exists_arrival {s t : Finset (Fin E)} (hcard : s.card = t.card) (hne : s ≠ t) : ∃ e ∈ s, e ∉ t := by
  by_contra hsub
  push Not at hsub
  exact hne (Finset.eq_of_subset_of_card_le hsub hcard.ge)

/-- If only the GPU set of a layer changes, and what comes in was in RAM, the tiers stay disjoint exactly when
it does not change. -/
theorem disjoint_iff_of_sameRam (hdisj : Disjoint m.gpuExpertsMask m.ramExpertsMask)
    (hcard : m'.gpuExpertsMask.card = m.gpuExpertsMask.card) (hram : m'.ramExpertsMask = m.ramExpertsMask)
    (hfrom : ∀ e ∈ m'.gpuExpertsMask, e ∉ m.gpuExpertsMask → e ∈ m.ramExpertsMask) :
    Disjoint m'.gpuExpertsMask m'.ramExpertsMask ↔ m'.gpuExpertsMask = m.gpuExpertsMask := by
  rw [hram]
  refine ⟨fun h => ?_, fun h => h ▸ hdisj⟩
  by_contra hne
  obtain ⟨e, he, hout⟩ := exists_arrival hcard hne
  exact Finset.disjoint_left.mp h he (hfrom e he hout)

/-- An adaptive tick keeps the tiers of its layer disjoint exactly when it does not swap. -/
theorem ktAdaptiveUpdateLayer_disjoint_iff (htier : env.tierEnabled = true) (ev : AdaptiveEvent E α) (ctl : Ctl α)
    (hm : LayerOk env n m) (hdisj : Disjoint m.gpuExpertsMask m.ramExpertsMask) :
    LayerOk env n (ktAdaptiveUpdateLayer env q srt ev ctl m).2 ∧
      (Disjoint (ktAdaptiveUpdateLayer env q srt ev ctl m).2.gpuExpertsMask
        (ktAdaptiveUpdateLayer env q srt ev ctl m).2.ramExpertsMask ↔ ¬ swapsGpuSet env q ev ctl m) := by
  by_cases hdyn : env.tierEnabled ∧ env.ktTierDynamic
  · have h := ktTierUpdateLayer_applied q srt ev.toTierEvent hm.seats hm.wired hdisj
    rw [ktAdaptiveUpdateLayer_dynamic hdyn]
    refine ⟨⟨h.seats, h.wired, h.tpRank.trans hm.tpRank⟩, fun _ hs => hs.1 hdyn, fun _ => ?_⟩
    exact disjoint_of_applied q srt ev.toTierEvent hdisj h
  have h : AdaptiveTicked env q ev ctl n m (ktAdaptiveUpdateLayer env q srt ev ctl m).2 :=
    ktAdaptiveUpdateLayer_spec hm.seats hdyn
  refine ⟨⟨h.seats, h.wired hm.wired, h.ram.tpRank.trans hm.tpRank⟩, ?_⟩
  by_cases hswap : swapsGpuSet env q ev ctl m
  · have hall : m.gpuExpertsMask ∪ m.ramExpertsMask = Finset.univ := by
      by_contra hne
      exact hswap.2.1 ⟨htier, hne⟩
    rw [disjoint_iff_of_sameRam hdisj (h.seats.card_mask.trans hm.seats.card_mask.symm) h.ram.ramMask
      fun e _ hout => (Finset.mem_union.mp (hall ▸ Finset.mem_univ e)).resolve_left hout]
    exact ⟨fun heq => absurd heq (h.gpuMask.mpr hswap), fun hs => absurd hswap hs⟩
  · have heq : (ktAdaptiveUpdateLayer env q srt ev ctl m).2.gpuExpertsMask = m.gpuExpertsMask := by
      by_contra hne
      exact hswap (h.gpuMask.mp hne)
    rw [heq, h.ram.ramMask]
    exact ⟨fun _ => hswap, fun _ => hdisj⟩

omit [Field α] in
/-- On a layer whose tables are in order a restage keeps the GPU set exactly when it asks for it, or the copy
raises. -/
theorem restagedGpu_eq_iff {e : Fin E → α} (hm : m.Seats n) :
    restagedGpu q srt e m = m.gpuExpertsMask ↔
      q = .mxfp4 ∨ (energyGpuSelect srt e m).toFinset = m.gpuExpertsMask := by
  obtain ⟨t, -, -, hnum⟩ := id hm
  have hlen : (energyGpuSelect srt e m).length = m.gpuExpertsMask.card := by
    have hle : m.gpuExpertsMask.card ≤ (m.gpuExpertsMask ∪ m.ramExpertsMask).card :=
      Finset.card_le_card Finset.subset_union_left
    unfold energyGpuSelect
    rw [List.length_take, srt.length_desc, length_whereTrue, hnum]
    have := hm.card_mask
    omega
  unfold restagedGpu
  by_cases hq : q = .mxfp4
  · rw [if_pos (Or.inl hq)]
    exact ⟨fun _ => Or.inl hq, fun _ => rfl⟩
  · rw [if_neg fun h => h.elim hq fun h' => h' hlen]
    exact ⟨Or.inr, fun h => h.resolve_left hq⟩

variable {s : Server E L α} {i : Fin L} {ev : EnergyEvent E L α}

/-- Moves keep the tiers disjoint: what they bring to RAM was on disk. -/
theorem moved_disjoint (hdisj : Disjoint (s.methods i).gpuExpertsMask (s.methods i).ramExpertsMask) :
    Disjoint (s.moved env ev i).gpuExpertsMask (s.moved env ev i).ramExpertsMask := by
  rw [(moved_sameTables i).mask]
  rcases moved_cases env ev s i with ⟨p, hp, rfl⟩ | hstay
  · have hnew : p.promote ∉ (s.methods p.layer).gpuExpertsMask := fun h =>
      (energyTodo_promotions.2 p hp).1 (Finset.mem_union_left _ h)
    have hold := hdisj.mono_right (Finset.erase_subset p.evict _)
    rw [(moved_of_mem hp).ramMask]
    split
    · exact hdisj
    · split
      · exact hold
      · exact Finset.disjoint_insert_right.mpr ⟨hnew, hold⟩
  · rw [hstay]
    exact hdisj

/-- The moves leave a layer in order. -/
theorem moved_layerOk (hm : LayerOk env n (s.methods i)) : LayerOk env n (s.moved env ev i) := by
  rcases moved_cases env ev s i with ⟨p, hp, rfl⟩ | hstay
  · have h := moved_of_mem hp
    exact ⟨h.tables.seats hm.seats, h.wired hm.wired, h.tpRank.trans hm.tpRank⟩
  · rw [hstay]
    exact hm

/-- An energy tick leaves a layer in order. -/
theorem ktEnergyOnDecodeStep_layerOk (stores : Fin L → Finset (Fin E)) (hm : LayerOk env n (s.methods i)) :
    LayerOk env n ((ktEnergyOnDecodeStep env q srt stores s ev).methods i) := by
  have hspec : EnergyTicked env q srt ev s i ((ktEnergyOnDecodeStep env q srt stores s ev).methods i) :=
    ktEnergyOnDecodeStep_spec i
  have hmoved : LayerOk env n (s.moved env ev i) := moved_layerOk hm
  exact ⟨hspec.seats n hm.seats, hspec.wired hmoved.wired, hspec.ram.tpRank.trans hmoved.tpRank⟩

/-- An energy tick keeps the tiers of a layer disjoint exactly when the layer is not restaged to another set. -/
theorem ktEnergyOnDecodeStep_disjoint_iff (stores : Fin L → Finset (Fin E)) (hm : LayerOk env n (s.methods i))
    (hdisj : Disjoint (s.methods i).gpuExpertsMask (s.methods i).ramExpertsMask) :
    LayerOk env n ((ktEnergyOnDecodeStep env q srt stores s ev).methods i) ∧
      (Disjoint ((ktEnergyOnDecodeStep env q srt stores s ev).methods i).gpuExpertsMask
        ((ktEnergyOnDecodeStep env q srt stores s ev).methods i).ramExpertsMask ↔
        q = .mxfp4 ∨ (i ∈ (energyTodo env s ev.allE).2 →
          (energyGpuSelect srt (ev.allE i) (s.moved env ev i)).toFinset = (s.methods i).gpuExpertsMask)) := by
  have hspec : EnergyTicked env q srt ev s i ((ktEnergyOnDecodeStep env q srt stores s ev).methods i) :=
    ktEnergyOnDecodeStep_spec i
  have hmoved : LayerOk env n (s.moved env ev i) := moved_layerOk hm
  have hmask : (s.moved env ev i).gpuExpertsMask = (s.methods i).gpuExpertsMask := (moved_sameTables i).mask
  refine ⟨ktEnergyOnDecodeStep_layerOk stores hm, ?_⟩
  rw [disjoint_iff_of_sameRam (m := s.moved env ev i) (moved_disjoint hdisj)
    ((hspec.seats n hm.seats).card_mask.trans hmoved.seats.card_mask.symm) hspec.ram.ramMask ?_, hspec.gpuMask, hmask]
  · by_cases hi : i ∈ (energyTodo env s ev.allE).2
    · rw [if_pos hi, ← hmask, restagedGpu_eq_iff hmoved.seats]
      exact or_congr_right ⟨fun h _ => h, fun h => h hi⟩
    · rw [if_neg hi]
      exact ⟨fun _ => Or.inr fun h => absurd h hi, fun _ => rfl⟩
  · intro e he hout
    rw [hspec.gpuMask] at he
    by_cases hi : i ∈ (energyTodo env s ev.allE).2
    · rw [if_pos hi] at he
      unfold restagedGpu at he
      split at he
      · exact absurd he hout
      · exact (Finset.mem_union.mp (energyGpuSelect_subset (List.mem_toFinset.mp he))).resolve_left hout
    · rw [if_neg hi, ← hmask] at he
      exact absurd he hout

end Layer

/-! ## The server -/

section Server

variable {env : Env α} {n : Fin L → ℕ} {s : Server E L α}

omit [Field α] [LinearOrder α] in
theorem Server.setLayer_self (s : Server E L α) (i : Fin L) (r : Ctl α × Method E) :
    (s.setLayer i r).methods i = r.2 := Function.update_self ..

omit [Field α] [LinearOrder α] in
theorem Server.setLayer_of_ne {i j : Fin L} (h : j ≠ i) (r : Ctl α × Method E) :
    (s.setLayer i r).methods j = s.methods j := Function.update_of_ne h ..

omit [Field α] [LinearOrder α] in
/-- What holds of every layer holds after one is replaced exactly when it holds of the new one. -/
theorem Server.forall_setLayer_iff (P : Fin L → Method E → Prop) (i : Fin L) (r : Ctl α × Method E)
    (hP : ∀ j, P j (s.methods j)) : (∀ j, P j ((s.setLayer i r).methods j)) ↔ P i r.2 := by
  constructor
  · intro hall
    have hself := hall i
    rwa [s.setLayer_self] at hself
  · intro hi j
    by_cases hj : j = i
    · subst hj
      rwa [s.setLayer_self]
    · rw [Server.setLayer_of_ne hj]
      exact hP j

omit [LinearOrder α] in
/-- A tick of one layer leaves every layer in order if it leaves that one so, and all tiers disjoint exactly
when those of that layer are. -/
theorem setLayer_spec {G : Prop} (i : Fin L) (r : Ctl α × Method E) (hs : ∀ j, LayerOk env (n j) (s.methods j))
    (hdisj : ∀ j, Disjoint (s.methods j).gpuExpertsMask (s.methods j).ramExpertsMask)
    (h : LayerOk env (n i) r.2 ∧ (Disjoint r.2.gpuExpertsMask r.2.ramExpertsMask ↔ G)) :
    (∀ j, LayerOk env (n j) ((s.setLayer i r).methods j)) ∧
      ((∀ j, Disjoint ((s.setLayer i r).methods j).gpuExpertsMask ((s.setLayer i r).methods j).ramExpertsMask) ↔ G) :=
  ⟨(Server.forall_setLayer_iff (fun j m => LayerOk env (n j) m) i r hs).mpr h.1,
    (Server.forall_setLayer_iff (fun _ m => Disjoint m.gpuExpertsMask m.ramExpertsMask) i r hdisj).trans h.2⟩

/-- **One tick.** Every layer stays in order, and the tiers stay disjoint exactly when the tick stays. -/
theorem tick_spec (q : Quant) (srt : Argsort (Fin E) α) (htier : env.tierEnabled = true) (t : Tick E L α)
    (hs : ∀ i, LayerOk env (n i) (s.methods i))
    (hdisj : ∀ i, Disjoint (s.methods i).gpuExpertsMask (s.methods i).ramExpertsMask) :
    (∀ i, LayerOk env (n i) ((s.tick env q srt t).methods i)) ∧
      ((∀ i, Disjoint ((s.tick env q srt t).methods i).gpuExpertsMask ((s.tick env q srt t).methods i).ramExpertsMask) ↔
        TickStays env q srt s t) := by
  cases t with
  | adaptive i ev =>
    exact setLayer_spec i _ hs hdisj (ktAdaptiveUpdateLayer_disjoint_iff htier ev s.ctl (hs i) (hdisj i))
  | tier i ev =>
    have h := ktTierUpdateLayer_applied q srt ev (hs i).seats (hs i).wired (hdisj i)
    refine setLayer_spec i _ hs hdisj ⟨⟨h.seats, h.wired, h.tpRank.trans (hs i).tpRank⟩, fun _ => trivial, fun _ => ?_⟩
    exact disjoint_of_applied q srt ev (hdisj i) h
  | energy ev =>
    have hlayer : ∀ i, LayerOk env (n i) ((s.tick env q srt (.energy ev)).methods i) ∧
        (Disjoint ((s.tick env q srt (.energy ev)).methods i).gpuExpertsMask
          ((s.tick env q srt (.energy ev)).methods i).ramExpertsMask ↔
          q = .mxfp4 ∨ (i ∈ (energyTodo env s ev.allE).2 →
            (energyGpuSelect srt (ev.allE i) (s.moved env ev i)).toFinset = (s.methods i).gpuExpertsMask)) :=
      fun i => ktEnergyOnDecodeStep_disjoint_iff _ (hs i) (hdisj i)
    exact ⟨fun i => (hlayer i).1, (forall_congr' fun i => (hlayer i).2).trans forall_or_left⟩

omit [LinearOrder α] in
theorem boot_layerOk (adaptive : Bool) (ranking : Option (List (Fin E))) (gpuMask : Finset (Fin E)) :
    LayerOk env gpuMask.card (Method.boot env adaptive ranking 0 gpuMask) where
  seats := Method.boot_seats env adaptive ranking 0 gpuMask
  wired := Method.boot_wired env adaptive ranking 0 gpuMask
  tpRank := rfl

end Server

/-- **Exactly one home.** From boot, under a RAM limit, for any interleaving of adaptive ticks, tier ticks and
energy ticks, with any demand and any failures, every expert of the two tiers has exactly one home after every
tick exactly when every tick stays. -/
theorem ticks_exactlyOneHome (env : Env α) (q : Quant) (srt : Argsort (Fin E) α) (cpu : CpuKernel E) (adaptive : Bool)
    (ranking : Fin L → Option (List (Fin E))) (gpuMask : Fin L → Finset (Fin E)) (htier : env.tierEnabled = true)
    (ts : List (Tick E L α)) :
    StatesHold (Server.tick env q srt) (fun s => ∀ i, ExactlyOneHome cpu (s.methods i))
        (Server.boot env adaptive ranking gpuMask 0) ts ↔
      StepsMeet (Server.tick env q srt) (TickStays env q srt) (Server.boot env adaptive ranking gpuMask 0) ts := by
  have hhome : ∀ s : Server E L α, (∀ i, LayerOk env (gpuMask i).card (s.methods i)) →
      ((∀ i, ExactlyOneHome cpu (s.methods i)) ↔
        ∀ i, Disjoint (s.methods i).gpuExpertsMask (s.methods i).ramExpertsMask) :=
    fun s hs => forall_congr' fun i => exactlyOneHome_iff htier (hs i)
  have hboot : ∀ i, LayerOk env (gpuMask i).card
      ((Server.boot env adaptive ranking gpuMask 0 : Server E L α).methods i) :=
    fun i => boot_layerOk adaptive (ranking i) (gpuMask i)
  refine statesHold_iff_stepsMeet (I := fun s => ∀ i, LayerOk env (gpuMask i).card (s.methods i))
    (fun s t hI hP _ => (tick_spec q srt htier t hI ((hhome s hI).mp hP)).1) (fun s t hI hP => ?_) hboot ?_ ts
  · obtain ⟨hok, hdisj⟩ := tick_spec q srt htier t hI ((hhome s hI).mp hP)
    rw [hhome _ hok, hdisj]
  · exact (hhome _ hboot).mpr fun i => Method.boot_disjoint env adaptive (ranking i) 0 (gpuMask i)

/-- Demand on experts 1 and 2, without a failure. -/
def adaptiveWantTwo : AdaptiveEvent 4 ℚ := { wantTwo with raised := false }

/-- A RAM tier of one expert with the energy mover and its GPU restage on. -/
def energyGpuOneInRam : Env ℚ := { energyOneInRam with ktEnergyGpu := true }

/-- Experts 1 and 2 surge: the one is on the GPU, the other in RAM. -/
def surgeTwo : EnergyEvent 4 1 ℚ where
  allE _ := ![0, 8, 8, 0]
  ready _ _ := true
  evict _ _ := .ok
  stage _ _ := .ok

theorem ticks_exactlyOneHome_wantTwo :
    StatesHold (Server.tick oneInRam .w4afp8 Argsort.stable)
      (fun s => ∀ i, ExactlyOneHome (CpuKernel.strict 4) (s.methods i))
      (Server.boot oneInRam true (fun _ => none) (fun _ : Fin 1 => {0, 1}) 0) [.adaptive 0 adaptiveWantTwo] := by
  refine (ticks_exactlyOneHome oneInRam .w4afp8 Argsort.stable (CpuKernel.strict 4) true (fun _ => none)
    (fun _ => {0, 1}) (by decide) [.adaptive 0 adaptiveWantTwo]).mpr ⟨?_, trivial⟩
  exact fun hs => hs.2.1 ⟨by decide, by decide⟩

/-- Both paths that leave the RAM mask as it is put expert 2 on the GPU while it stays in the RAM mask, so both
sides compute it, and leave expert 0 with no home. -/
theorem expert_two_doubled :
    (¬ StatesHold (Server.tick twoInRam .w4afp8 Argsort.stable)
      (fun s => ∀ i, ExactlyOneHome (CpuKernel.strict 4) (s.methods i))
      (Server.boot twoInRam true (fun _ => none) (fun _ : Fin 1 => {0, 1}) 0) [.adaptive 0 adaptiveWantTwo]) ∧
    ¬ StatesHold (Server.tick energyGpuOneInRam .w4afp8 Argsort.stable)
      (fun s => ∀ i, ExactlyOneHome (CpuKernel.strict 4) (s.methods i))
      (Server.boot energyGpuOneInRam true (fun _ => none) (fun _ : Fin 1 => {0, 1}) 0) [.energy surgeTwo] := by
  constructor
  · intro h
    have hdisj := (h.2 0).1
    revert hdisj
    decide +kernel
  · intro h
    have hdisj := (h.2 0).1
    revert hdisj
    decide +kernel

end ExpertServe
