import ExpertServe.Tick.Tier
import Mathlib.Data.Fin.VecNotation

/-!
# Weight honesty of the dynamic tier

What the rank that owns the CPU store must be able to say after any run of tier ticks: its RAM mask names
staged experts only, its GPU mask names experts whose own weights sit in their slots, and whoever the next
tick brings to the GPU is staged when the copy runs.

* `WeightHonest`: the three together;
* `tierTicks_weightHonest`: a run from boot keeps them exactly when, under INT4 Marlin, no tick moves the GPU
  set while a retained expert is not staged.
-/

namespace ExpertServe

open Lib

variable {E : ℕ} {α : Type*} [Field α] [LinearOrder α]

/-- The owning rank's masks tell the truth about the weights. -/
structure WeightHonest (env : Env α) (srt : Argsort (Fin E) α) (m : Method E) : Prop where
  ramStaged : m.ramExpertsMask ⊆ m.store
  gpuWeights : ∀ e ∈ m.gpuExpertsMask, 0 ≤ m.logicalToGpuIndex e ∧ m.residentRow e = some e
  arrivalsStaged : ∀ ev : TierEvent E α, (tierPlan env srt ev m).1 \ m.gpuExpertsMask ⊆ m.store

/-- Under INT4 Marlin a tick that moves the GPU set finds every expert it retains in the CPU store. -/
def RetainedStaged (env : Env α) (q : Quant) (srt : Argsort (Fin E) α) (m : Method E) (ev : TierEvent E α) :
    Prop :=
  q = .int4 → (tierPlan env srt ev m).1 ≠ m.gpuExpertsMask →
    (tierPlan env srt ev m).1 ∩ m.gpuExpertsMask ⊆ m.store

section Tick

variable {env : Env α} {q : Quant} {srt : Argsort (Fin E) α} {n : ℕ} {m : Method E}

/-- Arrivals come from the RAM tier, and the RAM tier is staged. -/
theorem arrivals_subset_store (srt : Argsort (Fin E) α) (hm : Owned env n m) (ev : TierEvent E α) :
    (tierPlan env srt ev m).1 \ m.gpuExpertsMask ⊆ m.store :=
  (tierPlan_ladder hm.disjoint).trans hm.staged

theorem weightHonest_iff_honest (hm : Owned env n m) : WeightHonest env srt m ↔ m.Honest := by
  rw [honest_iff_weights hm.seats]
  exact ⟨fun h => h.gpuWeights, fun h => ⟨hm.staged, h, arrivals_subset_store srt hm⟩⟩

/-- What a tick takes from the store is there exactly when the retained experts it takes are. -/
theorem sourcesStaged_iff_retainedStaged (hm : Owned env n m) (ev : TierEvent E α) :
    SourcesStaged q m.store (whereTrue (tierPlan env srt ev m).1) m ↔ RetainedStaged env q srt m ev := by
  have harrive := arrivals_subset_store srt hm ev
  unfold SourcesStaged RetainedStaged
  rw [whereTrue_toFinset]
  by_cases hq : q = .int4
  · subst hq
    simp only [takenFromStore, whereTrue_toFinset, forall_const]
    constructor
    · rintro (hsame | hsub) hne
      · exact absurd hsame hne
      · exact Finset.inter_subset_left.trans hsub
    · intro h
      by_cases hsame : (tierPlan env srt ev m).1 = m.gpuExpertsMask
      · exact Or.inl hsame
      · refine Or.inr fun e he => ?_
        by_cases hres : e ∈ m.gpuExpertsMask
        · exact h hsame (Finset.mem_inter.mpr ⟨he, hres⟩)
        · exact harrive (Finset.mem_sdiff.mpr ⟨he, hres⟩)
  · refine ⟨fun _ h => absurd h hq, fun _ => Or.inr ?_⟩
    have hsub := takenFromStore_subset hq m (whereTrue (tierPlan env srt ev m).1)
    rw [whereTrue_toFinset] at hsub
    exact hsub.trans harrive

end Tick

/-- **Weight honesty over any run of tier ticks.** From boot, with any demand and any failing calls into the
store, the masks tell the truth in every state exactly when every tick meets `RetainedStaged`; under every
quantisation but INT4 Marlin that is always. -/
theorem tierTicks_weightHonest (env : Env α) (q : Quant) (srt : Argsort (Fin E) α) (adaptive : Bool)
    (ranking : Option (List (Fin E))) (gpuMask : Finset (Fin E)) (evs : List (TierEvent E α)) :
    StatesHold (ktTierUpdateLayer env q srt) (WeightHonest env srt)
        (Method.boot env adaptive ranking 0 gpuMask) evs ↔
      StepsMeet (ktTierUpdateLayer env q srt) (RetainedStaged env q srt)
        (Method.boot env adaptive ranking 0 gpuMask) evs := by
  have hboot : Owned env gpuMask.card (Method.boot env adaptive ranking 0 gpuMask) :=
    boot_owned adaptive ranking gpuMask
  refine statesHold_iff_stepsMeet (I := Owned env gpuMask.card)
    (fun m ev hI _ _ => ktTierUpdateLayer_owned q srt ev hI) (fun m ev hI hP => ?_) hboot
    ((weightHonest_iff_honest hboot).mpr (Method.boot_honest env adaptive ranking 0 gpuMask)) evs
  rw [weightHonest_iff_honest (ktTierUpdateLayer_owned q srt ev hI), ← sourcesStaged_iff_retainedStaged hI ev]
  exact (ktTierUpdateLayer_applied q srt ev hI.seats hI.wired hI.disjoint).honest ((weightHonest_iff_honest hI).mp hP)

/-- Two of four experts on the GPU and two in host RAM. -/
def twoInRam : Env ℚ := { Env.unset with ktRamExperts := 2 }

/-- Demand that brings expert 2 to the GPU in the place of expert 0. -/
def wantTwo : TierEvent 4 ℚ where
  counts := ![0, 100, 100, 0]
  frozen := false
  ctxBuilt := false
  evict := fun _ => .ok
  promote := fun _ => .ok

/-- Under INT4 Marlin the tick that brings in expert 2 takes the retained expert 1 from a CPU store that does
not hold it. -/
theorem int4_tick_loses_retained :
    ¬ StatesHold (ktTierUpdateLayer twoInRam .int4 Argsort.stable) (WeightHonest twoInRam Argsort.stable)
      (Method.boot twoInRam true none 0 {0, 1}) [wantTwo] := by
  intro h
  have hrow := (h.2.gpuWeights 1 (by decide +kernel)).2
  revert hrow
  decide +kernel

end ExpertServe
