import Mathlib.Data.List.Basic
import Mathlib.Data.Fintype.EquivFin
import Mathlib.Logic.Function.Iterate
import Mathlib.Order.Monotone.Basic

/-!
# Runs of a deterministic step function

A system is a step function `σ → ε → σ`; a run folds it over a list of events.

* `StatesHold step P s es`: `P` holds in every state the run passes through, the first one included;
* `StepsMeet step G s es`: every step of the run is taken in a state and on an event that satisfy `G`;
* `StatesHold.of_invariant`, `StepsMeet.of_invariant`: what an invariant gives along every run;
* `StepsMeet.imp_of_invariant`: what an invariant gives along a run whose steps are all taken under a guard;
* `stepsMeet_iff_of_follows`: conditions on two systems that follow each other;
* `measure_foldl_eq_iff`: a measure no step increases comes out of a run as it went in exactly when every step keeps it;
* `statesHold_iff_stepsMeet`: a property of states that one step keeps exactly under `G` holds along a
  run exactly when all its steps meet `G`;
* `exists_run_of_measure`: a system in which some event always makes progress can be brought to its goal;
* `exists_seq_settled`, `exists_seq_fixed`, `exists_iterate_fixed`: a sequence in a finite type that moves only to
  increase a measure stops.
-/

namespace ExpertServe.Lib

section Runs

variable {σ ε : Type*} {step : σ → ε → σ} {P I : σ → Prop} {G : σ → ε → Prop}

/-- `P` holds in every state that the run of `es` from `s` passes through. -/
def StatesHold (step : σ → ε → σ) (P : σ → Prop) : σ → List ε → Prop
  | s, [] => P s
  | s, e :: es => P s ∧ StatesHold step P (step s e) es

/-- Every step of the run of `es` from `s` is taken under `G`. -/
def StepsMeet (step : σ → ε → σ) (G : σ → ε → Prop) : σ → List ε → Prop
  | _, [] => True
  | s, e :: es => G s e ∧ StepsMeet step G (step s e) es

theorem StatesHold.head {s : σ} {es : List ε} (h : StatesHold step P s es) : P s := by
  cases es with
  | nil => exact h
  | cons e es => exact h.1

theorem StatesHold.mono {Q : σ → Prop} (hPQ : ∀ s, P s → Q s) {s : σ} {es : List ε}
    (h : StatesHold step P s es) : StatesHold step Q s es := by
  induction es generalizing s with
  | nil => exact hPQ s h
  | cons e es ih => exact ⟨hPQ s h.1, ih h.2⟩

theorem StepsMeet.mono {G' : σ → ε → Prop} (hGG' : ∀ s e, G s e → G' s e) {s : σ} {es : List ε}
    (h : StepsMeet step G s es) : StepsMeet step G' s es := by
  induction es generalizing s with
  | nil => trivial
  | cons e es ih => exact ⟨hGG' s e h.1, ih h.2⟩

/-- The last state of the run is one of the states it passes through. -/
theorem StatesHold.last {s : σ} {es : List ε} (h : StatesHold step P s es) : P (es.foldl step s) := by
  induction es generalizing s with
  | nil => exact h
  | cons e es ih => exact ih h.2

/-- **Invariant rule.** What every step preserves holds along every run. -/
theorem StatesHold.of_invariant (hstep : ∀ s e, I s → I (step s e)) {s : σ} (h0 : I s) (es : List ε) :
    StatesHold step I s es := by
  induction es generalizing s with
  | nil => exact h0
  | cons e es ih => exact ⟨h0, ih (hstep s e h0)⟩

/-- **Condition rule.** Where events of a kind keep an invariant and are taken under `G` while it holds, every run
of such events is taken under `G`. -/
theorem StepsMeet.of_invariant {A : ε → Prop} (hstep : ∀ s e, A e → I s → I (step s e)) (hG : ∀ s e, A e → I s → G s e)
    {s : σ} (h0 : I s) (es : List ε) (hA : ∀ e ∈ es, A e) : StepsMeet step G s es := by
  induction es generalizing s with
  | nil => trivial
  | cons e es ih =>
    have he : A e := hA e List.mem_cons_self
    exact ⟨hG s e he h0, ih (hstep s e he h0) fun e' he' => hA e' (List.mem_cons_of_mem e he')⟩

/-- **Guarded rule.** Where an invariant and a guard together keep the invariant and give another condition, every
run under the guard is taken under that condition. -/
theorem StepsMeet.imp_of_invariant {G' : σ → ε → Prop} (hstep : ∀ s e, I s → G s e → I (step s e) ∧ G' s e)
    {s : σ} (h0 : I s) {es : List ε} (h : StepsMeet step G s es) : StepsMeet step G' s es := by
  induction es generalizing s with
  | nil => trivial
  | cons e es ih =>
    obtain ⟨hnext, hmeets⟩ := hstep s e h0 h.1
    exact ⟨hmeets, ih hnext h.2⟩

/-- A run that follows another meets a condition when both do. -/
theorem stepsMeet_append {s : σ} {es es' : List ε} :
    StepsMeet step G s (es ++ es') ↔ StepsMeet step G s es ∧ StepsMeet step G (es.foldl step s) es' := by
  induction es generalizing s with
  | nil => exact (and_iff_right trivial).symm
  | cons e es ih =>
    show G s e ∧ StepsMeet step G (step s e) (es ++ es') ↔ (G s e ∧ StepsMeet step G (step s e) es) ∧ _
    rw [ih, and_assoc]
    rfl

/-- **Measure rule.** If, while the invariant holds, no step increases a measure and a step keeps it exactly when it
is taken under `G`, then a run ends with the measure it started with exactly when all its steps meet `G`. -/
theorem measure_foldl_eq_iff {β : Type*} [PartialOrder β] {μ : σ → β} (hI : ∀ s e, I s → I (step s e))
    (hle : ∀ s e, I s → μ (step s e) ≤ μ s) (hG : ∀ s e, I s → (μ (step s e) = μ s ↔ G s e)) {s : σ} (hs : I s)
    (es : List ε) : μ (es.foldl step s) ≤ μ s ∧ (μ (es.foldl step s) = μ s ↔ StepsMeet step G s es) := by
  induction es generalizing s with
  | nil => exact ⟨le_rfl, fun _ => trivial, fun _ => rfl⟩
  | cons e es ih =>
    obtain ⟨hrest, hiff⟩ := ih (hI s e hs)
    have hstep : μ (step s e) ≤ μ s := hle s e hs
    refine ⟨hrest.trans hstep, fun h => ?_, fun ⟨hg, hmeet⟩ => ?_⟩
    · -- the measure is squeezed between both ends of the run
      have hfirst : μ (step s e) = μ s := hstep.antisymm (h.ge.trans hrest)
      exact ⟨(hG s e hs).mp hfirst, hiff.mp (h.trans hfirst.symm)⟩
    · exact (hiff.mpr hmeet).trans ((hG s e hs).mpr hg)

/-- Conditions that agree wherever an invariant holds are met by the same runs. -/
theorem stepsMeet_congr {G' : σ → ε → Prop} (hI : ∀ s e, I s → I (step s e)) (hG : ∀ s e, I s → (G s e ↔ G' s e))
    {s : σ} (h0 : I s) (es : List ε) : StepsMeet step G s es ↔ StepsMeet step G' s es := by
  induction es generalizing s with
  | nil => exact Iff.rfl
  | cons e es ih =>
    show G s e ∧ StepsMeet step G (step s e) es ↔ G' s e ∧ StepsMeet step G' (step s e) es
    rw [hG s e h0, ih (hI s e h0)]

/-- **Following.** If two systems stay related while their steps are taken under conditions that agree, then a run
meets the condition of the one exactly when it meets that of the other. -/
theorem stepsMeet_iff_of_follows {σ' : Type*} {step' : σ' → ε → σ'} {G' : σ' → ε → Prop} {R : σ → σ' → Prop}
    (hG : ∀ s s' e, R s s' → (G s e ↔ G' s' e)) (hR : ∀ s s' e, R s s' → G s e → R (step s e) (step' s' e))
    {s : σ} {s' : σ'} (h0 : R s s') (es : List ε) : StepsMeet step G s es ↔ StepsMeet step' G' s' es := by
  induction es generalizing s s' with
  | nil => exact Iff.rfl
  | cons e es ih =>
    show G s e ∧ StepsMeet step G (step s e) es ↔ G' s' e ∧ StepsMeet step' G' (step' s' e) es
    rw [← hG s s' e h0]
    exact and_congr_right fun hg => ih (hR s s' e h0 hg)

/-- **Exact runs.** If, while the invariant `I` and the property `P` hold, a step keeps `P` exactly
when it is taken under `G`, then `P` holds along a run exactly when all its steps meet `G`. -/
theorem statesHold_iff_stepsMeet (hI : ∀ s e, I s → P s → G s e → I (step s e))
    (hG : ∀ s e, I s → P s → (P (step s e) ↔ G s e)) {s : σ} (hIs : I s) (hPs : P s) (es : List ε) :
    StatesHold step P s es ↔ StepsMeet step G s es := by
  induction es generalizing s with
  | nil => exact ⟨fun _ => trivial, fun _ => hPs⟩
  | cons e es ih =>
    constructor
    · rintro ⟨-, h⟩
      have hg : G s e := (hG s e hIs hPs).mp h.head
      exact ⟨hg, (ih (hI s e hIs hPs hg) h.head).mp h⟩
    · rintro ⟨hg, h⟩
      have hP' : P (step s e) := (hG s e hIs hPs).mpr hg
      exact ⟨hPs, (ih (hI s e hIs hPs hg) hP').mpr h⟩

/-- **Completion rule.** If, while an invariant holds and the goal is not met, some event keeps the invariant and
decreases a measure, then a run from any such state can meet the goal. -/
theorem exists_run_of_measure {D : σ → Prop} (μ : σ → ℕ)
    (hstep : ∀ s, I s → ¬ D s → ∃ e, I (step s e) ∧ μ (step s e) < μ s) {s : σ} (hs : I s) :
    ∃ es : List ε, D (es.foldl step s) := by
  induction hm : μ s using Nat.strong_induction_on generalizing s with
  | h m ih =>
    by_cases hD : D s
    · exact ⟨[], hD⟩
    · obtain ⟨e, he, hlt⟩ := hstep s hs hD
      obtain ⟨es, hes⟩ := ih (μ (step s e)) (hm ▸ hlt) he rfl
      exact ⟨e :: es, hes⟩

end Runs

section Iteration

variable {σ β : Type*}

/-- A sequence in a finite type whose moves strictly increase a measure is constant from some point on. -/
theorem exists_seq_settled [Finite σ] [Preorder β] (r : ℕ → σ) (μ : σ → β)
    (hμ : ∀ n, r (n + 1) ≠ r n → μ (r n) < μ (r (n + 1))) : ∃ N, ∀ n, N ≤ n → r n = r N := by
  -- some state of the sequence is below no other, so the sequence cannot leave it
  obtain ⟨N, hmax⟩ : ∃ N, ∀ n, ¬ μ (r N) < μ (r n) := by
    by_contra hup
    push Not at hup
    choose next hnext using hup
    have hmono : StrictMono fun k => μ (r (next^[k] 0)) := strictMono_nat_of_lt_succ fun k => by
      rw [Function.iterate_succ_apply']
      exact hnext _
    have hinj : Function.Injective fun k => r (next^[k] 0) := fun m n h => hmono.injective (congrArg μ h)
    exact not_injective_infinite_finite _ hinj
  refine ⟨N, fun n hn => ?_⟩
  induction n, hn using Nat.le_induction with
  | base => rfl
  | succ n hn ih =>
    by_contra hmove
    have hup := hμ n (ih ▸ hmove)
    rw [ih] at hup
    exact hmax (n + 1) hup

/-- A sequence in a finite type whose moves strictly increase a measure does not move everywhere. -/
theorem exists_seq_fixed [Finite σ] [Preorder β] (r : ℕ → σ) (μ : σ → β)
    (hμ : ∀ n, r (n + 1) ≠ r n → μ (r n) < μ (r (n + 1))) : ∃ n, r (n + 1) = r n := by
  obtain ⟨N, hN⟩ := exists_seq_settled r μ hμ
  exact ⟨N, hN (N + 1) (Nat.le_succ N)⟩

/-- **Quiescence.** A map on a finite type that strictly increases a measure wherever it moves reaches
a fixed point from every start. -/
theorem exists_iterate_fixed [Finite σ] [Preorder β] (f : σ → σ) (μ : σ → β)
    (hμ : ∀ s, f s ≠ s → μ s < μ (f s)) (s : σ) : ∃ n, f (f^[n] s) = f^[n] s := by
  obtain ⟨n, hn⟩ := exists_seq_fixed (fun n => f^[n] s) μ fun n hmove => by
    rw [Function.iterate_succ_apply'] at hmove ⊢
    exact hμ _ hmove
  exact ⟨n, by rwa [Function.iterate_succ_apply'] at hn⟩

end Iteration

end ExpertServe.Lib
