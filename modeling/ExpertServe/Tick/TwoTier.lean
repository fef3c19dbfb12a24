import ExpertServe.Forward.SafeRouting
import ExpertServe.Tick.Homes

/-!
# Safe-mode routing over adaptive swaps

Without a RAM limit every expert is on the GPU or staged in the CPU store. Routing takes what is reachable from
two device masks: the GPU mask, which every swap rewrites, and the RAM mask, which is written once at boot.

* `RoutesGenuinely`: on a layer, every expert is reachable, and so a row keeps exactly the ranks below `K`;
* `adaptiveTicks_routeGenuinely`: a run of adaptive ticks from boot keeps that exactly when no tick swaps.
-/

namespace ExpertServe

open Lib

variable {E L : ℕ} {α : Type*} [Field α] [LinearOrder α]

/-- What routing reads of a layer, with what the prefetcher published. -/
def Method.placement (m : Method E) (pfLanded : Finset (Fin E)) (pfIssued : Bool) : Placement E :=
  ⟨m.gpuExpertsMaskCuda, m.ramExpertsMaskCuda, pfLanded, pfIssued⟩

/-- Every expert of the layer is reachable; every row keeps exactly the ranks below `K`; and with `K` the number
of slots it passes through. -/
structure RoutesGenuinely (env : Env α) (m : Method E) : Prop where
  reachable : ∀ pfLanded pfIssued, (m.placement pfLanded pfIssued).reachVec = Finset.univ
  keeps : ∀ {k : ℕ} (srtRow : Argsort (Fin k) α) pfLanded pfIssued (row : RoutedRow E k α) K j,
    keepMask env srtRow (m.placement pfLanded pfIssued) row.toRow K j = decide (srtRow.rank row.weights j < K)
  passes : ∀ {k : ℕ} (srtRow : Argsort (Fin k) α) (srtAll : Argsort (Fin E) α) sigmoid pfLanded pfIssued
    (row : RoutedRow E k α) scores,
    (safeRoute env srtRow srtAll sigmoid (m.placement pfLanded pfIssued) row.toRow scores k).ids = row.ids ∧
      (∑ j, row.weights j = 1 →
        (safeRoute env srtRow srtAll sigmoid (m.placement pfLanded pfIssued) row.toRow scores k).weights = row.weights)

/-- What holds of a layer without a RAM limit: the RAM mask on the device is still the one of boot. -/
structure TwoTierOk (env : Env α) (gpuMask : Finset (Fin E)) (m : Method E) : Prop where
  ok : LayerOk env gpuMask.card m
  ramMaskCuda : m.ramExpertsMaskCuda = gpuMaskᶜ

section Layer

variable {env : Env α} {q : Quant} {srt : Argsort (Fin E) α} {gpuMask : Finset (Fin E)} {m : Method E}

/-- Routing is genuine exactly while the GPU set is the one of boot. -/
theorem routesGenuinely_iff [IsStrictOrderedRing α] (hall : env.ktGpuOnly = false) (hm : TwoTierOk env gpuMask m) :
    RoutesGenuinely env m ↔ m.gpuExpertsMask = gpuMask := by
  obtain ⟨t, ht, -, -⟩ := hm.ok.seats
  have hreach : ∀ pfLanded pfIssued, (m.placement pfLanded pfIssued).reachVec = m.gpuExpertsMask ∪ gpuMaskᶜ :=
    fun _ _ => by
      show m.gpuExpertsMaskCuda ∪ m.ramExpertsMaskCuda = _
      rw [ht.maskCuda, hm.ramMaskCuda]
  constructor
  · intro h
    have huniv := (hreach ∅ false).symm.trans (h.reachable ∅ false)
    have hsub : gpuMask ⊆ m.gpuExpertsMask := fun e he => by
      have hmem : e ∈ m.gpuExpertsMask ∪ gpuMaskᶜ := huniv ▸ Finset.mem_univ e
      exact (Finset.mem_union.mp hmem).resolve_right fun hc => Finset.mem_compl.mp hc he
    exact (Finset.eq_of_subset_of_card_le hsub hm.ok.seats.card_mask.le).symm
  · intro h
    have huniv : ∀ pfLanded pfIssued, (m.placement pfLanded pfIssued).reachVec = Finset.univ := fun l b => by
      rw [hreach, h, Finset.union_compl]
    exact ⟨huniv, fun srtRow l b row K j => keepMask_eq (huniv l b) hall j,
      fun srtRow srtAll sigmoid l b row scores => safeRoute_passthrough srtAll sigmoid scores (huniv l b) hall⟩

/-- An adaptive tick of a layer that routes genuinely. -/
theorem ktAdaptiveUpdateLayer_twoTier (htwo : env.tierEnabled = false) (ev : AdaptiveEvent E α) (ctl : Ctl α)
    (hm : TwoTierOk env gpuMask m) :
    TwoTierOk env gpuMask (ktAdaptiveUpdateLayer env q srt ev ctl m).2 ∧
      ((ktAdaptiveUpdateLayer env q srt ev ctl m).2.gpuExpertsMask = m.gpuExpertsMask ↔
        ¬ swapsGpuSet env q ev ctl m) := by
  have hstatic : ¬ (env.tierEnabled ∧ env.ktTierDynamic) := fun h => Bool.false_ne_true (htwo.symm.trans h.1)
  have h : AdaptiveTicked env q ev ctl gpuMask.card m (ktAdaptiveUpdateLayer env q srt ev ctl m).2 :=
    ktAdaptiveUpdateLayer_spec hm.ok.seats hstatic
  refine ⟨⟨⟨h.seats, h.wired hm.ok.wired, h.ram.tpRank.trans hm.ok.tpRank⟩, h.ram.ramMaskCuda.trans hm.ramMaskCuda⟩, ?_⟩
  rw [← h.gpuMask, not_not]

omit [LinearOrder α] in
theorem boot_twoTierOk (htwo : env.tierEnabled = false) (adaptive : Bool) (ranking : Option (List (Fin E))) :
    TwoTierOk env gpuMask (Method.boot env adaptive ranking 0 gpuMask) where
  ok := boot_layerOk adaptive ranking gpuMask
  ramMaskCuda := by
    unfold Method.boot
    simp [htwo]

end Layer

/-- One adaptive tick of one layer. -/
def Server.adaptiveTick (env : Env α) (q : Quant) (srt : Argsort (Fin E) α) (s : Server E L α)
    (ev : Fin L × AdaptiveEvent E α) : Server E L α := s.tick env q srt (.adaptive ev.1 ev.2)

/-- **Genuine routing over adaptive swaps.** From boot without a RAM limit, over any sequence of adaptive ticks,
routing keeps exactly the ranks below `K` on every layer in every state exactly when no tick swaps. -/
theorem adaptiveTicks_routeGenuinely [IsStrictOrderedRing α] (env : Env α) (q : Quant) (srt : Argsort (Fin E) α)
    (adaptive : Bool) (ranking : Fin L → Option (List (Fin E))) (gpuMask : Fin L → Finset (Fin E))
    (htwo : env.tierEnabled = false) (hall : env.ktGpuOnly = false) (evs : List (Fin L × AdaptiveEvent E α)) :
    StatesHold (Server.adaptiveTick env q srt) (fun s => ∀ i, RoutesGenuinely env (s.methods i))
        (Server.boot env adaptive ranking gpuMask 0) evs ↔
      StepsMeet (Server.adaptiveTick env q srt) (fun s ev => ¬ swapsGpuSet env q ev.2 s.ctl (s.methods ev.1))
        (Server.boot env adaptive ranking gpuMask 0) evs := by
  have hboot : ∀ i, TwoTierOk env (gpuMask i) ((Server.boot env adaptive ranking gpuMask 0 : Server E L α).methods i) :=
    fun i => boot_twoTierOk htwo adaptive (ranking i)
  refine statesHold_iff_stepsMeet (I := fun s => ∀ i, TwoTierOk env (gpuMask i) (s.methods i))
    (fun s ev hI _ _ => ?_) (fun s ev hI hP => ?_) hboot (fun i => ?_) evs
  · exact (Server.forall_setLayer_iff (fun i m => TwoTierOk env (gpuMask i) m) ev.1 _ hI).mpr
      (ktAdaptiveUpdateLayer_twoTier htwo ev.2 s.ctl (hI ev.1)).1
  · obtain ⟨hok, hmask⟩ := ktAdaptiveUpdateLayer_twoTier (q := q) htwo ev.2 s.ctl (hI ev.1)
    refine (Server.forall_setLayer_iff (fun _ m => RoutesGenuinely env m) ev.1 _ hP).trans ?_
    rw [routesGenuinely_iff hall hok, ← hmask, (routesGenuinely_iff hall (hI ev.1)).mp (hP ev.1)]
  · exact (routesGenuinely_iff hall (hboot i)).mpr rfl

/-- No RAM limit, and a budget of no swaps. -/
def noSwaps : Env ℚ := { Env.unset with ktAdaptiveMaxSwap := 0 }

theorem adaptiveTicks_routeGenuinely_noSwaps :
    StatesHold (Server.adaptiveTick noSwaps .w4afp8 Argsort.stable)
      (fun s => ∀ i, RoutesGenuinely noSwaps (s.methods i))
      (Server.boot noSwaps true (fun _ => none) (fun _ : Fin 1 => {0, 1}) 0) [(0, adaptiveWantTwo)] := by
  refine (adaptiveTicks_routeGenuinely noSwaps .w4afp8 Argsort.stable true (fun _ => none) (fun _ => {0, 1})
    (by decide) rfl [(0, adaptiveWantTwo)]).mpr ⟨?_, trivial⟩
  exact fun hs => absurd hs.2.2.2.2.2.2.1 (by decide)

/-- A swap of expert 2 for expert 0 leaves expert 0 unreachable, though the CPU store still holds it. -/
theorem swapped_out_unreachable :
    ¬ StatesHold (Server.adaptiveTick ({} : Env ℚ) .w4afp8 Argsort.stable)
      (fun s => ∀ i, RoutesGenuinely ({} : Env ℚ) (s.methods i))
      (Server.boot {} true (fun _ => none) (fun _ : Fin 1 => {0, 1}) 0) [(0, adaptiveWantTwo)] := by
  intro h
  have hreach := (h.2 0).reachable ∅ false
  revert hreach
  decide +kernel

end ExpertServe
