import ExpertServe.Policy.AdaptiveSelect
import ExpertServe.Tick.Tier

/-!
# The adaptive tick

`_kt_adaptive_update_layer` on the rank that owns the store: under a RAM limit it hands over to the dynamic
tier, or stands back while an SSD tier exists; otherwise it re-selects the GPU set of the layer and leaves the
RAM mask alone.

* `swapsGpuSet`: the branch in which the tick changes the GPU set by itself;
* `ktAdaptiveUpdateLayer_stay`, `ktAdaptiveUpdateLayer_swap`: what the tick leaves outside and inside it.
-/

namespace ExpertServe

open Lib

variable {E : ℕ} {α : Type*} [Field α] [LinearOrder α]

/-- What an adaptive tick meets: what a tier tick does, and whether its own selection raises. -/
structure AdaptiveEvent (E : ℕ) (α : Type*) extends TierEvent E α where
  raised : Bool

/-- `_kt_adaptive_update_layer`. -/
def ktAdaptiveUpdateLayer (env : Env α) (q : Quant) (srt : Argsort (Fin E) α) (ev : AdaptiveEvent E α)
    (ctl : Ctl α) (m : Method E) : Ctl α × Method E :=
  if env.tierEnabled ∧ env.ktTierDynamic then (ctl, ktTierUpdateLayer env q srt m ev.toTierEvent)
  else if env.tierEnabled ∧ ((m.gpuExpertsMask ∪ m.ramExpertsMask)ᶜ).card ≠ 0 then (ctl, m)
  else if m.numGpuExperts = 0 then (ctl, m)
  else if m.gpuExpertsMask.card ≠ m.numGpuExperts then (ctl, m)
  else
    let (selected, ctl) := if ev.raised then (whereTrue m.gpuExpertsMask, ctl)
      else ktAdaptiveSelect env srt ctl ev.counts m.gpuExpertsMask m.numGpuExperts
    (ctl, (changeGpuSet env q ev.ctxBuilt m.store (env.ktAdaptiveIncremental ≠ 0) selected m).2)

/-- The tick changes the GPU set by itself: neither guard holds, and a swap pays on a quantisation the copy
handles. -/
def swapsGpuSet (env : Env α) (q : Quant) (ev : AdaptiveEvent E α) (ctl : Ctl α) (m : Method E) : Prop :=
  ¬ (env.tierEnabled ∧ env.ktTierDynamic) ∧
    ¬ (env.tierEnabled ∧ m.gpuExpertsMask ∪ m.ramExpertsMask ≠ Finset.univ) ∧
    m.numGpuExperts ≠ 0 ∧ ev.raised = false ∧ q ≠ .mxfp4 ∧ SwapPays env ctl ev.counts m.gpuExpertsMask

/-- What a tick that does not hand over to the dynamic tier leaves of a layer. -/
structure AdaptiveTicked (env : Env α) (q : Quant) (ev : AdaptiveEvent E α) (ctl : Ctl α) (n : ℕ)
    (m m' : Method E) : Prop where
  seats : m'.Seats n
  ram : m.SameRam m'
  wired : m.Wired env → m'.Wired env
  gpuMask : m'.gpuExpertsMask ≠ m.gpuExpertsMask ↔ swapsGpuSet env q ev ctl m
  honest : q ≠ .int4 → m.gpuExpertsMaskᶜ ⊆ m.store → m.Honest → m'.Honest

section Tick

variable {env : Env α} {q : Quant} {srt : Argsort (Fin E) α} {ev : AdaptiveEvent E α} {ctl : Ctl α} {n : ℕ}
  {m : Method E}

/-- A guard holds: experts are on SSD, there are no GPU experts, or the selection raises. -/
def standsBack (env : Env α) (ev : AdaptiveEvent E α) (m : Method E) : Prop :=
  (env.tierEnabled ∧ m.gpuExpertsMask ∪ m.ramExpertsMask ≠ Finset.univ) ∨ m.numGpuExperts = 0 ∨ ev.raised = true

theorem card_ssd_ne_zero_iff : ((m.gpuExpertsMask ∪ m.ramExpertsMask)ᶜ).card ≠ 0 ↔
    m.gpuExpertsMask ∪ m.ramExpertsMask ≠ Finset.univ := by
  rw [ne_eq, Finset.card_eq_zero, Finset.compl_eq_empty_iff]

/-- Behind a guard the layer stays as it is. -/
theorem ktAdaptiveUpdateLayer_stay (hstatic : ¬ (env.tierEnabled ∧ env.ktTierDynamic)) (h : standsBack env ev m) :
    (ktAdaptiveUpdateLayer env q srt ev ctl m).2 = m := by
  unfold ktAdaptiveUpdateLayer
  rw [if_neg hstatic]
  simp only [card_ssd_ne_zero_iff]
  by_cases hssd : env.tierEnabled ∧ m.gpuExpertsMask ∪ m.ramExpertsMask ≠ Finset.univ
  · rw [if_pos hssd]
  rw [if_neg hssd]
  by_cases hnum : m.numGpuExperts = 0
  · rw [if_pos hnum]
  rw [if_neg hnum]
  split
  · rfl
  · -- a selection that raises keeps the residents
    have hraised : ev.raised = true := (h.resolve_left hssd).resolve_left hnum
    dsimp only
    rw [if_pos hraised]
    unfold changeGpuSet
    rw [if_pos (List.Perm.refl _)]

/-- Past the guards the layer changes to a set of the same size, another one exactly when a swap pays. -/
theorem ktAdaptiveUpdateLayer_swap (hm : m.Seats n) (hstatic : ¬ (env.tierEnabled ∧ env.ktTierDynamic))
    (h : ¬ standsBack env ev m) :
    ∃ sel : Finset (Fin E), sel.card = n ∧ (sel ≠ m.gpuExpertsMask ↔ SwapPays env ctl ev.counts m.gpuExpertsMask) ∧
      (ktAdaptiveUpdateLayer env q srt ev ctl m).2 =
        (changeGpuSet env q ev.ctxBuilt m.store (env.ktAdaptiveIncremental ≠ 0) (whereTrue sel) m).2 := by
  unfold standsBack at h
  push Not at h
  obtain ⟨hssd, hnum, hraised⟩ := h
  have hres : m.gpuExpertsMask.card = m.numGpuExperts := by
    obtain ⟨t, ht, htlen, htnum⟩ := id hm
    exact hm.card_mask.trans htnum.symm
  obtain ⟨sel, hsel, hcard, hpays⟩ := ktAdaptiveSelect_spec env srt ctl ev.counts m.gpuExpertsMask
  refine ⟨sel, hcard.trans hm.card_mask, hpays, ?_⟩
  unfold ktAdaptiveUpdateLayer
  rw [if_neg hstatic]
  simp only [card_ssd_ne_zero_iff]
  rw [if_neg fun hc => hc.2 (hssd hc.1), if_neg hnum, if_neg (not_not.mpr hres)]
  dsimp only
  rw [if_neg hraised, ← hres, hsel]

/-- **One adaptive tick outside the dynamic tier.** -/
theorem ktAdaptiveUpdateLayer_spec (hm : m.Seats n) (hstatic : ¬ (env.tierEnabled ∧ env.ktTierDynamic)) :
    AdaptiveTicked env q ev ctl n m (ktAdaptiveUpdateLayer env q srt ev ctl m).2 := by
  by_cases hback : standsBack env ev m
  · rw [ktAdaptiveUpdateLayer_stay hstatic hback]
    refine ⟨hm, Method.SameRam.refl m, id, ⟨fun hne => absurd rfl hne, fun hs => ?_⟩, fun _ _ hhon => hhon⟩
    obtain ⟨-, hssd, hnum, hraised, -⟩ := hs
    rcases hback with h | h | h
    · exact absurd h hssd
    · exact absurd h hnum
    · simp [hraised] at h
  obtain ⟨sel, hcard, hpays, heq⟩ :=
    ktAdaptiveUpdateLayer_swap hm hstatic hback
  have hlen : (whereTrue sel).length = n := (length_whereTrue sel).trans hcard
  obtain ⟨-, hseats, hgpu, hram, hwired, hhonest⟩ :=
    changeGpuSet_spec env ev.ctxBuilt (decide (env.ktAdaptiveIncremental ≠ 0)) m.store q hm (whereTrue_nodup sel) hlen
  rw [heq]
  refine ⟨hseats, hram, hwired, ?_, fun hq hoff hhon => (hhonest hhon).mpr (Or.inr ?_)⟩
  · rw [hgpu, whereTrue_toFinset]
    unfold swapsGpuSet
    rw [← hpays]
    unfold standsBack at hback
    push Not at hback
    obtain ⟨hssd, hnum, hraised⟩ := hback
    by_cases hq : q = .mxfp4
    · rw [if_pos hq]
      exact ⟨fun h => absurd rfl h, fun h => absurd hq h.2.2.2.2.1⟩
    · rw [if_neg hq]
      refine ⟨fun h => ⟨hstatic, fun hc => hc.2 (hssd hc.1), hnum, ?_, hq, h⟩, fun h => h.2.2.2.2.2⟩
      simpa using hraised
  · -- every arrival comes from off the GPU, and all of those are in the store
    intro e he
    have harrival := takenFromStore_subset hq m (whereTrue sel) he
    exact hoff (Finset.mem_compl.mpr (Finset.mem_sdiff.mp harrival).2)

/-- Under the dynamic tier the tick is a tier tick. -/
theorem ktAdaptiveUpdateLayer_dynamic (h : env.tierEnabled ∧ env.ktTierDynamic) :
    ktAdaptiveUpdateLayer env q srt ev ctl m = (ctl, ktTierUpdateLayer env q srt m ev.toTierEvent) := by
  unfold ktAdaptiveUpdateLayer
  rw [if_pos h]

end Tick

end ExpertServe
