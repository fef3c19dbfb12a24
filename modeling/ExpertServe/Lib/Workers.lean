import ExpertServe.Lib.Run

/-!
# Workers with a program each

Workers share a state. Each goes through its own list of instructions, and any of them may be next at any time.

* `work`: one worker does its next instruction;
* `posts_of_done`: where every instruction establishes its own condition from those of the instructions before it in
  its program, and no instruction breaks the condition of another, all conditions hold once all workers are done.
-/

namespace ExpertServe.Lib

variable {ω ι σ : Type*} [DecidableEq ω]

/-- The state, and how many of its instructions each worker has done. -/
structure Shop (ω σ : Type*) where
  state : σ
  done : ω → ℕ

/-- The next instruction of a worker, if it has one left. -/
def work (program : ω → List ι) (exec : σ → ι → σ) (s : Shop ω σ) (w : ω) : Shop ω σ :=
  if h : s.done w < (program w).length then
    ⟨exec s.state (program w)[s.done w], Function.update s.done w (s.done w + 1)⟩
  else s

def opened (s : σ) : Shop ω σ := ⟨s, fun _ => 0⟩

/-- The invariant holds, and so do all conditions of what has been done. -/
def Posted (program : ω → List ι) (inv : σ → Prop) (post : ι → σ → Prop) (s : Shop ω σ) : Prop :=
  inv s.state ∧ ∀ w, ∀ i ∈ (program w).take (s.done w), post i s.state

/-- What an instruction does, done by worker `w` after the `n` before it. -/
structure Sound (program : ω → List ι) (exec : σ → ι → σ) (inv : σ → Prop) (post : ι → σ → Prop) : Prop where
  keepsInv : ∀ s i, inv s → inv (exec s i)
  establishes : ∀ w n (h : n < (program w).length) s, inv s → (∀ i ∈ (program w).take n, post i s) →
    post (program w)[n] (exec s (program w)[n])
  keeps : ∀ w n (h : n < (program w).length) s, inv s → (∀ i ∈ (program w).take n, post i s) →
    ∀ w', ∀ i ∈ program w', post i s → post i (exec s (program w)[n])

section Posts

variable {program : ω → List ι} {exec : σ → ι → σ} {inv : σ → Prop} {post : ι → σ → Prop}

omit [DecidableEq ω] in
theorem posted_opened {s : σ} (hs : inv s) : Posted program inv post (opened s : Shop ω σ) := by
  refine ⟨hs, fun w i hi => ?_⟩
  simp [opened] at hi

theorem posted_work (h : Sound program exec inv post) {s : Shop ω σ} (hs : Posted program inv post s) (w : ω) :
    Posted program inv post (work program exec s w) := by
  obtain ⟨hinv, hposts⟩ := hs
  unfold work
  split
  · next hlt =>
    refine ⟨h.keepsInv _ _ hinv, fun w' i hi => ?_⟩
    dsimp only at hi ⊢
    by_cases hw : w' = w
    · subst hw
      rw [Function.update_self, List.take_succ_eq_append_getElem hlt, List.mem_append, List.mem_singleton] at hi
      rcases hi with hi | rfl
      · exact h.keeps w' _ hlt _ hinv (hposts w') w' i (List.mem_of_mem_take hi) (hposts w' i hi)
      · exact h.establishes w' _ hlt _ hinv (hposts w')
    · rw [Function.update_of_ne hw] at hi
      exact h.keeps w _ hlt _ hinv (hposts w) w' i (List.mem_of_mem_take hi) (hposts w' i hi)
  · exact ⟨hinv, hposts⟩

/-- **Conditions add up.** -/
theorem posts_of_done (h : Sound program exec inv post) {s : σ} (hs : inv s) (turns : List ω) :
    let shop := turns.foldl (work program exec) (opened s)
    inv shop.state ∧ ∀ w, (program w).length ≤ shop.done w → ∀ i ∈ program w, post i shop.state := by
  have hstep : ∀ (t : Shop ω σ) w, Posted program inv post t → Posted program inv post (work program exec t w) :=
    fun _ w ht => posted_work h ht w
  obtain ⟨hinv, hposts⟩ := (StatesHold.of_invariant hstep (posted_opened hs) turns).last
  exact ⟨hinv, fun w hdone i hi => hposts w i (by rwa [List.take_of_length_le hdone])⟩

end Posts

end ExpertServe.Lib
