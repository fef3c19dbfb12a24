import Mathlib.Data.Fintype.Prod
import ExpertServe.Lib.Run
import ExpertServe.Residency.Streams

/-!
# The staging pipeline

The `_prepare_weight_*` methods stream experts out of the CPU store through two staging slots in each rank's pinned
memory: `write(e+1) || copy(e) || postprocess(e-1)`. Rank 0 has all slots written, every rank's copy stream reads
its own, and a barrier of the ranks stands between a write and the copies of it.

* `StagingJob.step`: one cell written or copied, one event, one postprocessing, or one move of a rank's loop;
* `StagingJob.Inv`: what every step keeps, `inv_step` the step lemma;
* `pipeline_copies`: in every run rank 0 ends with every expert's own bytes, and so does a rank whose copies the
  writer waited for; any other rank may end with cells of an expert that was staged later in the same slot;
* `pipeline_progress`: no run gets stuck before every rank is through;
* `load_of_pipeline`: rank 0's layer after the pipeline is the one `load` gives.
-/

namespace ExpertServe

open Lib

/-- What one call streams: the experts in the order of the loop, and for each rank the cells `K` that the store writes
of an expert. The root is the rank that has the wrapper. -/
structure StagingJob (ρ ε K V : Type*) where
  root : ρ
  cpuExpertIds : List ε
  nodup : cpuExpertIds.Nodup
  store : ρ → ε → K → V
  postprocessExpert : (K → V) → K → V

/-- The pipeline. `unwritten` are the cells that the last submitted write has still to write. Of each rank: the index
of its loop, whether it has come to the barrier of that round, how many copies its copy stream is through with, the
cells the next one has still to copy, and how many experts are postprocessed. -/
structure Staging (ρ ε K V : Type*) where
  cpuBuffers : ρ → ℕ → K → V
  gpu : ρ → ε → K → V
  submitted : ℕ
  unwritten : Finset (ρ × K)
  round : ρ → ℕ
  atBarrier : ρ → Bool
  copied : ρ → ℕ
  uncopied : ρ → Finset K
  posted : ρ → ℕ

/-- How many barriers a rank has come to. -/
def Staging.reached {ρ ε K V : Type*} (s : Staging ρ ε K V) (r : ρ) : ℕ := s.round r + (s.atBarrier r).toNat

inductive StagingStep (ρ K : Type*) where
  | write (r : ρ) (k : K)
  | arrive (r : ρ)
  | pass (r : ρ)
  | copy (r : ρ) (k : K)
  | record (r : ρ)
  | postprocess (r : ρ)

namespace StagingJob

variable {ρ ε K V : Type*} (job : StagingJob ρ ε K V)

/-- The writes and copies of one call. -/
def rounds : ℕ := job.cpuExpertIds.length

section Moves

variable [DecidableEq ρ] [DecidableEq ε] [DecidableEq K] [Fintype ρ] [Fintype K]

/-- The root submits the first write ahead of the loop. -/
def init (cpuBuffers : ρ → ℕ → K → V) (gpu : ρ → ε → K → V) : Staging ρ ε K V where
  cpuBuffers := cpuBuffers
  gpu := gpu
  submitted := min 1 job.rounds
  unwritten := if job.rounds = 0 then ∅ else Finset.univ
  round := fun _ => 0
  atBarrier := fun _ => false
  copied := fun _ => 0
  uncopied := fun _ => Finset.univ
  posted := fun _ => 0

/-- The CPU backend writes one cell of the expert that was submitted last, into the slot of its index. -/
def write (s : Staging ρ ε K V) (r : ρ) (k : K) : Staging ρ ε K V :=
  match job.cpuExpertIds[s.submitted - 1]? with
  | some e =>
    if (r, k) ∈ s.unwritten then
      { s with cpuBuffers := fun r' slot k' => if r' = r ∧ slot = (s.submitted - 1) % 2 ∧ k' = k then job.store r e k
                 else s.cpuBuffers r' slot k'
               unwritten := s.unwritten.erase (r, k) }
    else s
  | none => s

/-- A rank comes to the barrier of its round. -/
def enter (s : Staging ρ ε K V) (r : ρ) : Staging ρ ε K V :=
  { s with atBarrier := Function.update s.atBarrier r true }

/-- `submit_write_expert`. -/
def submit (s : Staging ρ ε K V) : Staging ρ ε K V :=
  { s with submitted := s.submitted + 1, unwritten := Finset.univ }

/-- The head of the loop. The root first waits for the write of this round; if there is another one to submit, it
waits for its own copy of the round before, `events[idx - 1]`, whose slot the write goes to. -/
def arrive (s : Staging ρ ε K V) (r : ρ) : Staging ρ ε K V :=
  if s.atBarrier r ∨ job.rounds ≤ s.round r then s
  else if r = job.root then
    if s.unwritten = ∅ then
      if s.round r + 1 < job.rounds then
        if s.round r ≤ s.copied r then enter (submit s) r else s
      else enter s r
    else s
  else enter s r

/-- Once every rank has come to the barrier, a rank leaves it, enqueues its copy and goes on. -/
def pass (s : Staging ρ ε K V) (r : ρ) : Staging ρ ε K V :=
  if s.atBarrier r ∧ ∀ r', s.round r < s.reached r' then
    { s with round := Function.update s.round r (s.round r + 1), atBarrier := Function.update s.atBarrier r false }
  else s

/-- The copy stream moves one cell of the next copy that has been enqueued. -/
def copy (s : Staging ρ ε K V) (r : ρ) (k : K) : Staging ρ ε K V :=
  match job.cpuExpertIds[s.copied r]? with
  | some e =>
    if s.copied r < s.round r ∧ k ∈ s.uncopied r then
      { s with gpu := fun r' e' k' => if r' = r ∧ e' = e ∧ k' = k then s.cpuBuffers r (s.copied r % 2) k
                 else s.gpu r' e' k'
               uncopied := Function.update s.uncopied r ((s.uncopied r).erase k) }
    else s
  | none => s

/-- `events[idx]` is reached. -/
def record (s : Staging ρ ε K V) (r : ρ) : Staging ρ ε K V :=
  if s.copied r < s.round r ∧ s.uncopied r = ∅ then
    { s with copied := Function.update s.copied r (s.copied r + 1)
             uncopied := Function.update s.uncopied r Finset.univ }
  else s

/-- `postprocess_expert` on the post stream, which is enqueued one round later or after the loop and waits for the
event of the copy. -/
def postprocess (s : Staging ρ ε K V) (r : ρ) : Staging ρ ε K V :=
  match job.cpuExpertIds[s.posted r]? with
  | some e =>
    if s.posted r < s.copied r ∧ (s.posted r + 1 < s.round r ∨ s.round r = job.rounds) then
      { s with gpu := fun r' e' => if r' = r ∧ e' = e then job.postprocessExpert (s.gpu r e) else s.gpu r' e'
               posted := Function.update s.posted r (s.posted r + 1) }
    else s
  | none => s

def step (s : Staging ρ ε K V) : StagingStep ρ K → Staging ρ ε K V
  | .write r k => job.write s r k
  | .arrive r => job.arrive s r
  | .pass r => pass s r
  | .copy r k => job.copy s r k
  | .record r => record s r
  | .postprocess r => job.postprocess s r

end Moves

/-! ## The invariant -/

/-- The cell of the write `p` has been written. -/
def Written (s : Staging ρ ε K V) (r : ρ) (k : K) (p : ℕ) : Prop :=
  p < s.submitted ∧ (p + 1 = s.submitted → (r, k) ∉ s.unwritten)

/-- A cell of the expert of round `p`, or of an expert that the same slot held later; the latter not on the ranks
`waited` that the writer waits for. -/
def Sent (waited : ρ → Prop) (r : ρ) (p : ℕ) (k : K) (v : V) : Prop :=
  ∃ i e, job.cpuExpertIds[p + 2 * i]? = some e ∧ v = job.store r e k ∧ (waited r → i = 0)

/-- What every step keeps. -/
structure Inv (waited : ρ → Prop) (gpu : ρ → ε → K → V) (s : Staging ρ ε K V) : Prop where
  round_le : ∀ r, s.reached r ≤ job.rounds
  behind : ∀ r r', s.round r ≤ s.reached r'
  submitted_eq : s.submitted = min (s.reached job.root + 1) job.rounds
  synced : s.unwritten ≠ ∅ → s.reached job.root < s.submitted
  copied_le : ∀ r, s.copied r ≤ s.round r
  posted_le : ∀ r, s.posted r ≤ s.copied r
  waits : ∀ r, waited r → s.submitted ≤ s.copied r + 2
  buffers : ∀ r k p e, Written s r k p → ¬ Written s r k (p + 2) → job.cpuExpertIds[p]? = some e →
    s.cpuBuffers r (p % 2) k = job.store r e k
  copies : ∀ r p e k, job.cpuExpertIds[p]? = some e → s.posted r ≤ p →
    p < s.copied r ∨ p = s.copied r ∧ k ∉ s.uncopied r → job.Sent waited r p k (s.gpu r e k)
  posts : ∀ r p e, job.cpuExpertIds[p]? = some e → p < s.posted r →
    ∃ c, (∀ k, job.Sent waited r p k (c k)) ∧ s.gpu r e = job.postprocessExpert c
  untouched : ∀ r e, e ∉ job.cpuExpertIds → s.gpu r e = gpu r e

section Steps

variable {job} {waited : ρ → Prop} {gpu : ρ → ε → K → V} {s : Staging ρ ε K V}

theorem rounds_of_getElem? {p : ℕ} {e : ε} (h : job.cpuExpertIds[p]? = some e) : p < job.rounds :=
  (List.getElem?_eq_some_iff.1 h).1

/-- An expert has one round. -/
theorem round_unique {p q : ℕ} {e : ε} (hp : job.cpuExpertIds[p]? = some e) (hq : job.cpuExpertIds[q]? = some e) :
    p = q := (List.getElem?_inj (rounds_of_getElem? hp) job.nodup).1 (hp.trans hq.symm)

theorem round_unique_expert {p : ℕ} {e e' : ε} (hp : job.cpuExpertIds[p]? = some e)
    (hp' : job.cpuExpertIds[p]? = some e') : e = e' := Option.some.inj (hp.symm.trans hp')

/-- A slot holds the last write that has reached it. -/
theorem exists_last {r : ρ} {k : K} {p : ℕ} (h : Written s r k p) :
    ∃ i, Written s r k (p + 2 * i) ∧ ¬ Written s r k (p + 2 * i + 2) := by
  by_contra hno
  push Not at hno
  have hall : ∀ i, Written s r k (p + 2 * i) := fun i => by
    induction i with
    | zero => exact h
    | succ i ih => exact hno i ih
  have hlt := (hall s.submitted).1
  omega

theorem Inv.submitted_le (h : job.Inv waited gpu s) : s.submitted ≤ job.rounds :=
  h.submitted_eq.trans_le (min_le_right ..)

/-- What is enqueued for a copy has been written. -/
theorem Inv.written (h : job.Inv waited gpu s) {r : ρ} {p : ℕ} (hp : p < s.round r) (hn : p < job.rounds) (k : K) :
    Written s r k p := by
  have hroot := h.behind r job.root
  have hsub := h.submitted_eq
  refine ⟨by omega, fun hlast hmem => ?_⟩
  have hsync := h.synced (Finset.ne_empty_of_mem hmem)
  omega

/-- What a copy finds in its slot. -/
theorem Inv.sent (h : job.Inv waited gpu s) {r : ρ} (hr : s.copied r < s.round r) (hn : s.copied r < job.rounds)
    (k : K) : job.Sent waited r (s.copied r) k (s.cpuBuffers r (s.copied r % 2) k) := by
  obtain ⟨i, hi, hlast⟩ := exists_last (h.written hr hn k)
  have hlt : s.copied r + 2 * i < job.rounds := hi.1.trans_le h.submitted_le
  have he := List.getElem?_eq_getElem hlt
  have hbuf := h.buffers r k _ _ hi hlast he
  rw [Nat.add_mul_mod_self_left] at hbuf
  refine ⟨i, _, he, hbuf, fun hw => ?_⟩
  have hwaits := h.waits r hw
  have hlt := hi.1
  omega

variable [DecidableEq ρ]

theorem reached_update (r r' : ρ) (b : Bool) :
    Staging.reached { s with atBarrier := Function.update s.atBarrier r b } r' =
      if r' = r then s.round r + b.toNat else s.reached r' := by
  unfold Staging.reached
  by_cases hr : r' = r
  · subst hr
    simp
  · simp [hr]

/-- A rank comes to the barrier, the root once its write is through and the next one, if any, is submitted. -/
theorem Inv.enter (h : job.Inv waited gpu s) {r : ρ} (hb : s.atBarrier r = false) (hr : s.round r < job.rounds)
    (submitted : ℕ) (unwritten : Finset (ρ × K))
    (hwritten : ∀ r' k p, Written { s with submitted := submitted, unwritten := unwritten } r' k p ↔ Written s r' k p)
    (hsub : submitted = if r = job.root then min (s.round r + 2) job.rounds else s.submitted)
    (hsync : unwritten ≠ ∅ → (if r = job.root then s.round r + 1 else s.reached job.root) < submitted)
    (hwaits : ∀ r', waited r' → submitted ≤ s.copied r' + 2) :
    job.Inv waited gpu (StagingJob.enter { s with submitted := submitted, unwritten := unwritten } r) := by
  have hreached : ∀ r', (StagingJob.enter { s with submitted := submitted, unwritten := unwritten } r).reached r' =
      if r' = r then s.round r + 1 else s.reached r' := fun r' => reached_update r r' true
  have hold : s.reached r = s.round r := by simp [Staging.reached, hb]
  refine { h with
    round_le := ?_, behind := ?_, submitted_eq := ?_, synced := ?_, waits := hwaits, buffers := ?_ }
  · intro r'
    rw [hreached]
    split
    · exact hr
    · exact h.round_le r'
  · intro r₁ r₂
    rw [hreached]
    split
    · next heq =>
      subst heq
      have hle := h.behind r₁ r₂
      rw [hold] at hle
      exact hle.trans (Nat.le_succ _)
    · exact h.behind r₁ r₂
  · rw [hreached]
    refine hsub.trans ?_
    by_cases hroot : r = job.root
    · simp [hroot]
    · rw [if_neg hroot, if_neg fun heq => hroot heq.symm]
      exact h.submitted_eq
  · intro hne
    refine lt_of_eq_of_lt ?_ (hsync hne)
    rw [hreached]
    simp only [eq_comm]
  · intro r' k p e hp hnext hpe
    exact h.buffers r' k p e ((hwritten r' k p).1 hp) (fun hp₂ => hnext ((hwritten r' k (p + 2)).2 hp₂)) hpe

theorem Inv.write [DecidableEq K] (h : job.Inv waited gpu s) (r : ρ) (k : K) : job.Inv waited gpu (job.write s r k) := by
  unfold StagingJob.write
  split
  · next e he =>
    split
    · next hmem =>
      have hlt := h.synced (Finset.ne_empty_of_mem hmem)
      have hwritten : ∀ r' k' p, Written { s with
            cpuBuffers := fun r' slot k' => if r' = r ∧ slot = (s.submitted - 1) % 2 ∧ k' = k then job.store r e k
              else s.cpuBuffers r' slot k'
            unwritten := s.unwritten.erase (r, k) } r' k' p ↔
          Written s r' k' p ∨ (p + 1 = s.submitted ∧ r' = r ∧ k' = k) := by
        intro r' k' p
        unfold Written
        by_cases hrk : r' = r ∧ k' = k
        · obtain ⟨rfl, rfl⟩ := hrk
          simp only [Finset.mem_erase, hmem, and_true, not_true_eq_false]
          simp only [ne_eq, not_true_eq_false, not_false_eq_true, implies_true, and_true]
          omega
        · have hne : (r', k') ≠ (r, k) := fun heq => hrk (Prod.mk.injEq .. ▸ heq)
          simp [hne, hrk]
      refine { h with synced := ?_, buffers := ?_ }
      · exact fun _ => hlt
      · intro r' k' p e' hp hnext hpe
        rw [hwritten] at hp hnext
        push Not at hnext
        by_cases hcell : r' = r ∧ p % 2 = (s.submitted - 1) % 2 ∧ k' = k
        · obtain ⟨rfl, hpar, rfl⟩ := hcell
          -- the next write of the slot would have reached the cell before this one
          have hlast : p + 1 = s.submitted := by
            have hle : p < s.submitted := hp.elim (fun hp => hp.1) fun hp => by omega
            by_contra hne
            apply hnext.1
            refine ⟨by omega, fun heq => absurd rfl (hnext.2 heq rfl)⟩
          have hsame : e' = e := by
            rw [← hlast, Nat.add_sub_cancel, hpe] at he
            exact Option.some.inj he
          simp [hpar, hsame]
        · have hold : Written s r' k' p := hp.resolve_right fun ⟨hlast, hr, hk⟩ =>
            hcell ⟨hr, by rw [← hlast, Nat.add_sub_cancel], hk⟩
          rw [← h.buffers r' k' p e' hold hnext.1 hpe]
          exact if_neg hcell
    · exact h
  · exact h

theorem Inv.arrive [DecidableEq K] [Fintype ρ] [Fintype K] (h : job.Inv waited gpu s) (r : ρ)
    (hwait : ∀ r', waited r' → (job.arrive s r).submitted ≠ s.submitted → s.round job.root ≤ s.copied r') :
    job.Inv waited gpu (job.arrive s r) := by
  unfold StagingJob.arrive at hwait ⊢
  by_cases hout : s.atBarrier r ∨ job.rounds ≤ s.round r
  · rwa [if_pos hout]
  rw [if_neg hout] at hwait ⊢
  push Not at hout
  obtain ⟨hb, hr⟩ := hout
  replace hb : s.atBarrier r = false := by simpa using hb
  by_cases hroot : r = job.root
  · rw [if_pos hroot] at hwait ⊢
    by_cases hdone : s.unwritten = ∅
    · rw [if_pos hdone] at hwait ⊢
      have hsub := h.submitted_eq
      rw [← hroot, Staging.reached, hb, Bool.toNat_false, Nat.add_zero] at hsub
      by_cases hmore : s.round r + 1 < job.rounds
      · rw [if_pos hmore] at hwait ⊢
        by_cases hcopied : s.round r ≤ s.copied r
        · rw [if_pos hcopied] at hwait ⊢
          apply h.enter hb hr (s.submitted + 1) Finset.univ
          · intro r' k p
            simp only [Written, hdone, Finset.mem_univ, Finset.notMem_empty]
            simp only [not_true_eq_false, imp_false, not_false_eq_true, implies_true, and_true]
            omega
          · rw [if_pos hroot]
            omega
          · intro _
            rw [if_pos hroot]
            omega
          · intro r' hr'
            have hle := hwait r' hr' (by simp [StagingJob.enter, submit])
            rw [← hroot] at hle
            omega
        · rwa [if_neg hcopied]
      · rw [if_neg hmore]
        apply h.enter hb hr s.submitted s.unwritten
        · exact fun _ _ _ => Iff.rfl
        · rw [if_pos hroot]
          omega
        · exact fun hne => absurd hdone hne
        · exact h.waits
    · rwa [if_neg hdone]
  · rw [if_neg hroot]
    apply h.enter hb hr s.submitted s.unwritten
    · exact fun _ _ _ => Iff.rfl
    · rw [if_neg hroot]
    · rw [if_neg hroot]
      exact h.synced
    · exact h.waits

theorem Inv.pass [Fintype ρ] (h : job.Inv waited gpu s) (r : ρ) : job.Inv waited gpu (pass s r) := by
  unfold StagingJob.pass
  split
  · next hpass =>
    obtain ⟨hb, hall⟩ := hpass
    have hreached : ∀ r', Staging.reached { s with
        round := Function.update s.round r (s.round r + 1)
        atBarrier := Function.update s.atBarrier r false } r' = s.reached r' := by
      intro r'
      unfold Staging.reached
      by_cases hr : r' = r
      · subst hr
        simp [hb]
      · simp [hr]
    refine { h with round_le := ?_, behind := ?_, submitted_eq := ?_, synced := ?_, copied_le := ?_ }
    · simpa only [hreached] using h.round_le
    · intro r₁ r₂
      rw [hreached]
      by_cases hr : r₁ = r
      · subst hr
        simpa using Nat.succ_le_of_lt (hall r₂)
      · simpa [hr] using h.behind r₁ r₂
    · rw [hreached]
      exact h.submitted_eq
    · rw [hreached]
      exact h.synced
    · intro r'
      refine (h.copied_le r').trans ?_
      by_cases hr : r' = r
      · subst hr
        simp
      · simp [hr]
  · exact h

theorem Inv.copy [DecidableEq ε] [DecidableEq K] (h : job.Inv waited gpu s) (r : ρ) (k : K) :
    job.Inv waited gpu (job.copy s r k) := by
  unfold StagingJob.copy
  split
  · next e he =>
    split
    · next hcopy =>
      have hother : ∀ r' p e', job.cpuExpertIds[p]? = some e' → ¬ (r' = r ∧ p = s.copied r) →
          ∀ k', ¬ (r' = r ∧ e' = e ∧ k' = k) := by
        rintro r' p e' hp hne k' ⟨rfl, rfl, rfl⟩
        exact hne ⟨rfl, round_unique hp he⟩
      refine { h with copies := ?_, posts := ?_, untouched := ?_ }
      · intro r' p e' k' hp hpost hdone
        by_cases hcell : r' = r ∧ e' = e ∧ k' = k
        · obtain ⟨rfl, rfl, rfl⟩ := hcell
          have hround : p = s.copied r' := round_unique hp he
          subst hround
          simpa using h.sent hcopy.1 (rounds_of_getElem? hp) k'
        · refine (congrArg _ (if_neg hcell)).mpr ?_
          apply h.copies r' p e' k' hp hpost
          refine hdone.imp_right fun ⟨hround, hk⟩ => ⟨hround, fun hmem => hk ?_⟩
          by_cases hr : r' = r
          · subst hr
            have hkk : k' ≠ k := fun hkk => hcell ⟨rfl, round_unique_expert (hround ▸ hp) he, hkk⟩
            simpa [hkk] using hmem
          · simpa [hr] using hmem
      · intro r' p e' hp hpost
        obtain ⟨c, hc, hgpu⟩ := h.posts r' p e' hp hpost
        refine ⟨c, hc, Eq.trans ?_ hgpu⟩
        funext k'
        refine if_neg (hother r' p e' hp ?_ k')
        rintro ⟨rfl, rfl⟩
        exact absurd (hpost.trans_le (h.posted_le r')) (lt_irrefl _)
      · intro r' e' he'
        refine Eq.trans ?_ (h.untouched r' e' he')
        funext k'
        refine if_neg ?_
        rintro ⟨-, rfl, -⟩
        exact he' (List.mem_of_getElem? he)
    · exact h
  · exact h

theorem Inv.record [DecidableEq K] [Fintype K] (h : job.Inv waited gpu s) (r : ρ) : job.Inv waited gpu (record s r) := by
  unfold StagingJob.record
  split
  · next hrec =>
    have hcopied : ∀ r', s.copied r' ≤ Function.update s.copied r (s.copied r + 1) r' := by
      intro r'
      by_cases hr : r' = r
      · subst hr
        simp
      · simp [hr]
    refine { h with copied_le := ?_, posted_le := ?_, waits := ?_, copies := ?_ }
    · intro r'
      by_cases hr : r' = r
      · subst hr
        simpa using Nat.succ_le_of_lt hrec.1
      · simpa [hr] using h.copied_le r'
    · exact fun r' => (h.posted_le r').trans (hcopied r')
    · exact fun r' hr' => (h.waits r' hr').trans (Nat.add_le_add_right (hcopied r') 2)
    · intro r' p e k hp hpost hdone
      apply h.copies r' p e k hp hpost
      by_cases hr : r' = r
      · subst hr
        have hlt : p < s.copied r' + 1 := by simpa using hdone
        rcases Nat.lt_succ_iff_lt_or_eq.1 hlt with hlt | heq
        · exact .inl hlt
        · exact .inr ⟨heq, by simp [hrec.2]⟩
      · simpa [hr] using hdone
  · exact h

theorem Inv.postprocess [DecidableEq ε] (h : job.Inv waited gpu s) (r : ρ) :
    job.Inv waited gpu (job.postprocess s r) := by
  unfold StagingJob.postprocess
  split
  · next e he =>
    split
    · next hpost =>
      have hposted : ∀ r', s.posted r' ≤ Function.update s.posted r (s.posted r + 1) r' := by
        intro r'
        by_cases hr : r' = r
        · subst hr
          simp
        · simp [hr]
      have hother : ∀ r' p e', job.cpuExpertIds[p]? = some e' → ¬ (r' = r ∧ p = s.posted r) → ¬ (r' = r ∧ e' = e) := by
        rintro r' p e' hp hne ⟨rfl, rfl⟩
        exact hne ⟨rfl, round_unique hp he⟩
      refine { h with posted_le := ?_, copies := ?_, posts := ?_, untouched := ?_ }
      · intro r'
        by_cases hr : r' = r
        · subst hr
          simpa using Nat.succ_le_of_lt hpost.1
        · simpa [hr] using h.posted_le r'
      · intro r' p e' k hp hle hdone
        have hne : ¬ (r' = r ∧ e' = e) := by
          apply hother r' p e' hp
          rintro ⟨rfl, rfl⟩
          simp at hle
        refine (congrArg _ (congrFun (if_neg hne) k)).mpr ?_
        exact h.copies r' p e' k hp ((hposted r').trans hle) hdone
      · intro r' p e' hp hlt
        by_cases hcell : r' = r ∧ e' = e
        · obtain ⟨rfl, rfl⟩ := hcell
          have hround : p = s.posted r' := round_unique hp he
          exact ⟨s.gpu r' e', fun k => h.copies r' p e' k hp hround.ge (.inl (hround ▸ hpost.1)), by simp⟩
        · obtain ⟨c, hc, hgpu⟩ := h.posts r' p e' hp (by
            by_cases hr : r' = r
            · subst hr
              have hne : p ≠ s.posted r' := fun heq => hcell ⟨rfl, round_unique_expert (heq ▸ hp) he⟩
              have hle : p < s.posted r' + 1 := by simpa using hlt
              omega
            · simpa [hr] using hlt)
          exact ⟨c, hc, (if_neg hcell).trans hgpu⟩
      · intro r' e' he'
        refine Eq.trans (if_neg ?_) (h.untouched r' e' he')
        rintro ⟨-, rfl⟩
        exact he' (List.mem_of_getElem? he)
    · exact h
  · exact h

omit [DecidableEq ρ] in
theorem inv_init [Fintype ρ] [Fintype K] (cpuBuffers : ρ → ℕ → K → V) :
    job.Inv waited gpu (job.init cpuBuffers gpu) where
  round_le := by simp [init, Staging.reached]
  behind := by simp [init, Staging.reached]
  submitted_eq := by simp [init, Staging.reached]
  synced := by
    by_cases hn : job.rounds = 0
    · simp [init, hn]
    · simp [init, hn, Staging.reached, Nat.pos_of_ne_zero hn]
  copied_le := by simp [init]
  posted_le := by simp [init]
  waits := by
    intro r _
    simp only [init]
    omega
  buffers := by
    intro r k p e hp _ hpe
    have hlt : p < min 1 job.rounds := hp.1
    have hzero : p = 0 := by omega
    have hn : job.rounds ≠ 0 := by omega
    have hone : p + 1 = min 1 job.rounds := by omega
    exact absurd (by simp [init, hn]) (hp.2 hone)
  copies := by
    intro r p e k _ _ hdone
    simp [init] at hdone
  posts := by
    intro r p e _ hp
    cases hp
  untouched := fun _ _ _ => rfl

end Steps

variable [DecidableEq ρ] [DecidableEq ε] [DecidableEq K] [Fintype ρ] [Fintype K] {job}

/-- Where the step submits a write, rank `r` is through with the copy that last used its slot. -/
def WaitsFor (job : StagingJob ρ ε K V) (r : ρ) (s : Staging ρ ε K V) (e : StagingStep ρ K) : Prop :=
  (job.step s e).submitted ≠ s.submitted → s.round job.root ≤ s.copied r

/-- The root waits for itself. -/
theorem waitsFor_root (s : Staging ρ ε K V) (e : StagingStep ρ K) : job.WaitsFor job.root s e := by
  intro hsub
  cases e with
  | arrive r =>
    by_contra hlt
    apply hsub
    show (job.arrive s r).submitted = s.submitted
    unfold arrive
    by_cases hr : r = job.root
    · subst hr
      simp only [hlt, if_true, if_false]
      split_ifs <;> rfl
    · simp only [hr, if_false]
      split_ifs <;> rfl
  | write r k =>
    refine absurd ?_ hsub
    show (job.write s r k).submitted = s.submitted
    unfold write
    split <;> [split; skip] <;> rfl
  | pass r =>
    refine absurd ?_ hsub
    show (pass s r).submitted = s.submitted
    unfold pass
    split <;> rfl
  | copy r k =>
    refine absurd ?_ hsub
    show (job.copy s r k).submitted = s.submitted
    unfold copy
    split <;> [split; skip] <;> rfl
  | record r =>
    refine absurd ?_ hsub
    show (record s r).submitted = s.submitted
    unfold record
    split <;> rfl
  | postprocess r =>
    refine absurd ?_ hsub
    show (job.postprocess s r).submitted = s.submitted
    unfold postprocess
    split <;> [split; skip] <;> rfl

/-- Every step keeps the invariant, for the ranks that it waits for. -/
theorem inv_step {waited : ρ → Prop} {gpu : ρ → ε → K → V} {s : Staging ρ ε K V} {e : StagingStep ρ K}
    (h : job.Inv waited gpu s) (hwait : ∀ r, waited r → job.WaitsFor r s e) : job.Inv waited gpu (job.step s e) := by
  cases e with
  | write r k => exact h.write r k
  | arrive r => exact h.arrive r fun r' hr' => hwait r' hr'
  | pass r => exact h.pass r
  | copy r k => exact h.copy r k
  | record r => exact h.record r
  | postprocess r => exact h.postprocess r

/-- A run under which the ranks `waited` are waited for keeps the invariant. -/
theorem inv_run {waited : ρ → Prop} {gpu : ρ → ε → K → V} {s : Staging ρ ε K V} {es : List (StagingStep ρ K)}
    (h : job.Inv waited gpu s) (hwait : StepsMeet job.step (fun s e => ∀ r, waited r → job.WaitsFor r s e) s es) :
    job.Inv waited gpu (es.foldl job.step s) := by
  induction es generalizing s with
  | nil => exact h
  | cons e es ih => exact ih (inv_step h hwait.1) hwait.2

/-- The root's part of the invariant holds in every run. -/
theorem inv_root (job : StagingJob ρ ε K V) (cpuBuffers : ρ → ℕ → K → V) (gpu : ρ → ε → K → V)
    (es : List (StagingStep ρ K)) : job.Inv (· = job.root) gpu (es.foldl job.step (job.init cpuBuffers gpu)) := by
  have h : StatesHold job.step (job.Inv (· = job.root) gpu) (job.init cpuBuffers gpu) es := by
    apply StatesHold.of_invariant
    · exact fun s e h => inv_step h fun r hr => hr ▸ waitsFor_root s e
    · exact inv_init cpuBuffers
  exact h.last

/-- **What the pipeline leaves on the GPU.** In every run, on a rank that is through: an expert that was not streamed
is untouched; a streamed one has been postprocessed, from cells each of which is its own or that of an expert which
the same slot held later; and on the root, and on any rank that the writes waited for, all cells are its own. -/
theorem pipeline_copies (job : StagingJob ρ ε K V) (cpuBuffers : ρ → ℕ → K → V) (gpu : ρ → ε → K → V)
    (es : List (StagingStep ρ K)) (r : ρ) :
    let s := es.foldl job.step (job.init cpuBuffers gpu)
    s.posted r = job.rounds →
      (∀ e ∉ job.cpuExpertIds, s.gpu r e = gpu r e) ∧
      (∀ p e, job.cpuExpertIds[p]? = some e → ∃ c, s.gpu r e = job.postprocessExpert c ∧
        ∀ k, ∃ i e', job.cpuExpertIds[p + 2 * i]? = some e' ∧ c k = job.store r e' k) ∧
      (r = job.root ∨ StepsMeet job.step (job.WaitsFor r) (job.init cpuBuffers gpu) es →
        ∀ e ∈ job.cpuExpertIds, s.gpu r e = job.postprocessExpert (job.store r e)) := by
  intro s hdone
  have hinv : job.Inv (· = job.root) gpu s := inv_root job cpuBuffers gpu es
  refine ⟨hinv.untouched r, fun p e hp => ?_, fun hwait e he => ?_⟩
  · obtain ⟨c, hc, hgpu⟩ := hinv.posts r p e hp (hdone ▸ rounds_of_getElem? hp)
    refine ⟨c, hgpu, fun k => ?_⟩
    obtain ⟨i, e', he', hv, -⟩ := hc k
    exact ⟨i, e', he', hv⟩
  · obtain ⟨p, hp⟩ := List.mem_iff_getElem?.1 he
    have hr : job.Inv (· = r) gpu s := by
      rcases hwait with rfl | hwait
      · exact hinv
      · exact inv_run (inv_init cpuBuffers) (hwait.mono fun s e h r' hr' => hr' ▸ h)
    obtain ⟨c, hc, hgpu⟩ := hr.posts r p e hp (hdone ▸ rounds_of_getElem? hp)
    rw [hgpu]
    refine congrArg _ (funext fun k => ?_)
    obtain ⟨i, e', he', hv, hi⟩ := hc k
    rw [hi rfl, Nat.mul_zero, Nat.add_zero] at he'
    rw [hv, round_unique_expert hp he']

/-- Three experts for two ranks, of one cell each. -/
def threeExperts : StagingJob Bool ℕ Unit ℕ where
  root := false
  cpuExpertIds := [7, 8, 9]
  nodup := by decide
  store := fun _ e _ => e
  postprocessExpert := id

/-- A round of a rank whose copy is in step with its loop. -/
def inStep (r : Bool) : List (StagingStep Bool Unit) := [.pass r, .copy r (), .record r]

/-- A run in which the copy stream of the other rank lags behind until the root is done. -/
def laggingRun : List (StagingStep Bool Unit) :=
  let round := [.write false (), .write true (), .arrive false, .arrive true] ++ inStep false ++ [.pass true]
  round ++ round ++ round ++ List.replicate 3 (.postprocess false) ++
    (List.replicate 3 [.copy true (), .record true, .postprocess true]).flatten

theorem pipeline_copies_run :
    ∀ e ∈ threeExperts.cpuExpertIds,
      (laggingRun.foldl threeExperts.step (threeExperts.init (fun _ _ _ => 0) fun _ _ _ => 0)).gpu false e =
        fun _ => e :=
  (threeExperts.pipeline_copies (fun _ _ _ => 0) (fun _ _ _ => 0) laggingRun false (by decide +kernel)).2.2 (.inl rfl)

/-- In that run the other rank takes expert 9 for expert 7. -/
theorem laggingRun_overtaken :
    let s := laggingRun.foldl threeExperts.step (threeExperts.init (fun _ _ _ => 0) fun _ _ _ => 0)
    s.posted true = 3 ∧ s.gpu true 7 () = 9 := by decide +kernel

/-! ## Progress -/

/-- What is left for one rank's loop, copy stream and post stream. -/
def rankLeft (job : StagingJob ρ ε K V) (s : Staging ρ ε K V) (r : ρ) : ℕ :=
  (2 * job.rounds - (2 * s.round r + (s.atBarrier r).toNat)) +
    ((job.rounds - s.copied r) * (Fintype.card K + 1) + (s.uncopied r).card) + (job.rounds - s.posted r)

/-- What is left to write. -/
def writeLeft (job : StagingJob ρ ε K V) (s : Staging ρ ε K V) : ℕ :=
  (job.rounds - s.submitted) * (Fintype.card (ρ × K) + 1) + s.unwritten.card

def left (job : StagingJob ρ ε K V) (s : Staging ρ ε K V) : ℕ := job.writeLeft s + ∑ r, job.rankLeft s r

omit [DecidableEq ε] [DecidableEq K] in
theorem left_lt {s s' : Staging ρ ε K V} {r : ρ} (hwrite : job.writeLeft s' ≤ job.writeLeft s)
    (hoff : ∀ r', r' ≠ r → job.rankLeft s' r' = job.rankLeft s r') (hr : job.rankLeft s' r < job.rankLeft s r) :
    job.left s' < job.left s := by
  apply Nat.add_lt_add_of_le_of_lt hwrite
  apply Finset.sum_lt_sum
  · intro r' _
    by_cases heq : r' = r
    · exact heq ▸ hr.le
    · exact (hoff r' heq).le
  · exact ⟨r, Finset.mem_univ r, hr⟩

/-- A round less leaves less to do, whatever is left of the next one. -/
theorem rounds_left_lt {m n c d : ℕ} (hm : m < n) (hc : c ≤ d) : (n - (m + 1)) * (d + 1) + c < (n - m) * (d + 1) := by
  obtain ⟨k, rfl⟩ := Nat.exists_eq_add_of_lt hm
  have h₁ : m + k + 1 - (m + 1) = k := by omega
  have h₂ : m + k + 1 - m = k + 1 := by omega
  rw [h₁, h₂, Nat.succ_mul]
  omega

section Progress

variable {waited : ρ → Prop} {gpu : ρ → ε → K → V} {s : Staging ρ ε K V}

omit [DecidableEq ε] in
theorem write_left (h : job.Inv waited gpu s) {r : ρ} {k : K} (hrk : (r, k) ∈ s.unwritten) :
    job.left (job.write s r k) < job.left s := by
  have hlt := h.synced (Finset.ne_empty_of_mem hrk)
  have hle := h.submitted_le
  have he := List.getElem?_eq_getElem (show s.submitted - 1 < job.cpuExpertIds.length from
    lt_of_lt_of_le (by omega) hle)
  have hcard := Finset.card_erase_lt_of_mem hrk
  unfold write
  simp only [he, hrk, if_true]
  exact Nat.add_lt_add_right (Nat.add_lt_add_left hcard _) _

theorem copy_left (h : job.Inv waited gpu s) {r : ρ} {k : K} (hr : s.copied r < s.round r) (hk : k ∈ s.uncopied r) :
    job.left (job.copy s r k) < job.left s := by
  have hle := h.round_le r
  have he := List.getElem?_eq_getElem (show s.copied r < job.cpuExpertIds.length from
    lt_of_lt_of_le hr ((Nat.le_add_right ..).trans hle))
  have hcard := Finset.card_erase_lt_of_mem hk
  unfold copy
  simp only [he, hr, hk, and_self, if_true]
  apply left_lt (r := r)
  · exact le_rfl
  · intro r' hr'
    simp [rankLeft, hr']
  · simp only [rankLeft, Function.update_self]
    omega

omit [DecidableEq ε] in
theorem record_left (h : job.Inv waited gpu s) {r : ρ} (hr : s.copied r < s.round r) (hk : s.uncopied r = ∅) :
    job.left (record s r) < job.left s := by
  have hle := h.round_le r
  have hlt : s.copied r < job.rounds := lt_of_lt_of_le hr ((Nat.le_add_right ..).trans hle)
  have hless := rounds_left_lt hlt (le_refl (Fintype.card K))
  unfold record
  simp only [hr, hk, and_self, if_true]
  apply left_lt (r := r)
  · exact le_rfl
  · intro r' hr'
    simp [rankLeft, hr']
  · simp only [rankLeft, Function.update_self, hk, Finset.card_empty, Finset.card_univ]
    omega

omit [DecidableEq K] in
theorem postprocess_left {r : ρ} (hr : s.posted r < s.copied r) (hround : s.round r = job.rounds)
    (hle : s.posted r < job.rounds) : job.left (job.postprocess s r) < job.left s := by
  have he := List.getElem?_eq_getElem (show s.posted r < job.cpuExpertIds.length from hle)
  unfold postprocess
  simp only [he, hr, hround, or_true, and_self, if_true]
  apply left_lt (r := r)
  · exact le_rfl
  · intro r' hr'
    simp [rankLeft, hr']
  · simp only [rankLeft, Function.update_self]
    omega

omit [DecidableEq ε] [DecidableEq K] in
theorem pass_left (h : job.Inv waited gpu s) {r : ρ} (hb : s.atBarrier r = true)
    (hall : ∀ r', s.round r < s.reached r') : job.left (pass s r) < job.left s := by
  have hle := h.round_le r
  unfold pass
  simp only [hb, hall, implies_true, and_self, if_true]
  apply left_lt (r := r)
  · exact le_rfl
  · intro r' hr'
    simp [rankLeft, hr']
  · simp only [Staging.reached, hb, Bool.toNat_true] at hle
    simp only [rankLeft, Function.update_self, hb, Bool.toNat_true, Bool.toNat_false]
    omega

omit [DecidableEq ε] [DecidableEq K] in
theorem enter_left {r : ρ} (hb : s.atBarrier r = false) (hr : s.round r < job.rounds) (submitted : ℕ)
    (unwritten : Finset (ρ × K))
    (hwrite : (job.rounds - submitted) * (Fintype.card (ρ × K) + 1) + unwritten.card ≤ job.writeLeft s) :
    job.left (enter { s with submitted := submitted, unwritten := unwritten } r) < job.left s := by
  unfold enter
  apply left_lt (r := r)
  · exact hwrite
  · intro r' hr'
    simp [rankLeft, hr']
  · simp only [rankLeft, Function.update_self, hb, Bool.toNat_true, Bool.toNat_false]
    omega

omit [DecidableEq ε] in
theorem arrive_left (h : job.Inv waited gpu s) {r : ρ} (hdone : s.unwritten = ∅) (hb : s.atBarrier r = false)
    (hr : s.round r < job.rounds) (hcopied : s.round r ≤ s.copied r) : job.left (job.arrive s r) < job.left s := by
  unfold arrive
  simp only [hb, hr.not_ge, hdone, hcopied, Bool.false_eq_true, or_self, if_true, if_false]
  by_cases hroot : r = job.root
  · subst hroot
    have hsub := h.submitted_eq
    simp only [Staging.reached, hb, Bool.toNat_false, Nat.add_zero] at hsub
    by_cases hmore : s.round job.root + 1 < job.rounds
    · simp only [hmore, if_true]
      apply enter_left hb hr (s.submitted + 1) Finset.univ
      have hless := rounds_left_lt (show s.submitted < job.rounds by omega) (le_refl (Fintype.card (ρ × K)))
      rw [writeLeft, hdone, Finset.card_empty, Finset.card_univ]
      exact hless.le
    · simp only [hmore, if_true, if_false]
      exact enter_left hb hr s.submitted s.unwritten le_rfl
  · simp only [hroot, if_false]
    exact enter_left hb hr s.submitted s.unwritten le_rfl

/-- As long as some rank is not through, some step gets on. -/
theorem exists_left_lt (h : job.Inv waited gpu s) (hnot : ¬ ∀ r, s.posted r = job.rounds) :
    ∃ e, job.left (job.step s e) < job.left s := by
  by_cases hwrite : s.unwritten = ∅
  swap
  · obtain ⟨⟨r, k⟩, hrk⟩ := Finset.nonempty_iff_ne_empty.2 hwrite
    exact ⟨.write r k, write_left h hrk⟩
  by_cases hcopy : ∃ r, s.copied r < s.round r
  · obtain ⟨r, hr⟩ := hcopy
    by_cases hk : s.uncopied r = ∅
    · exact ⟨.record r, record_left h hr hk⟩
    · obtain ⟨k, hk⟩ := Finset.nonempty_iff_ne_empty.2 hk
      exact ⟨.copy r k, copy_left h hr hk⟩
  push Not at hcopy
  have hround : ∀ r, s.round r ≤ job.rounds := fun r => (Nat.le_add_right ..).trans (h.round_le r)
  by_cases hpost : ∃ r, s.round r = job.rounds ∧ s.posted r < job.rounds
  · obtain ⟨r, hr, hlt⟩ := hpost
    exact ⟨.postprocess r, postprocess_left (lt_of_lt_of_le (hr ▸ hlt) (hcopy r)) hr hlt⟩
  push Not at hpost
  by_cases harrive : ∃ r, s.atBarrier r = false ∧ s.round r < job.rounds
  · obtain ⟨r, hb, hr⟩ := harrive
    exact ⟨.arrive r, arrive_left h hwrite hb hr (hcopy r)⟩
  push Not at harrive
  -- every rank is at a barrier or out of its loop, and the last of those at a barrier may leave it
  obtain ⟨r₀, hr₀⟩ := not_forall.1 hnot
  have hin : s.round r₀ < job.rounds := by
    refine lt_of_le_of_ne (hround r₀) fun heq => hr₀ (le_antisymm ?_ (hpost r₀ heq))
    exact (h.posted_le r₀).trans ((h.copied_le r₀).trans (hround r₀))
  obtain ⟨r, hr, hmin⟩ := Finset.exists_min_image Finset.univ s.round ⟨r₀, Finset.mem_univ r₀⟩
  have hlt : s.round r < job.rounds := (hmin r₀ (Finset.mem_univ r₀)).trans_lt hin
  have hbarrier : ∀ r', s.round r' < job.rounds → s.atBarrier r' = true := fun r' hr' => by
    by_contra hb
    exact absurd (harrive r' (by simpa using hb)) (not_le.2 hr')
  refine ⟨.pass r, pass_left h (hbarrier r hlt) fun r' => ?_⟩
  have hle := hmin r' (Finset.mem_univ r')
  rcases (hround r').lt_or_eq with hr' | hr'
  · simp only [Staging.reached, hbarrier r' hr', Bool.toNat_true]
    omega
  · exact lt_of_lt_of_le (hr' ▸ hlt) (Nat.le_add_right ..)

end Progress

/-- **The pipeline never gets stuck.** Every run, however far it has got and in whatever order, can be brought to
its end: every rank postprocesses every expert. -/
theorem pipeline_progress (job : StagingJob ρ ε K V) (cpuBuffers : ρ → ℕ → K → V) (gpu : ρ → ε → K → V)
    (es : List (StagingStep ρ K)) :
    ∃ es', ∀ r, ((es ++ es').foldl job.step (job.init cpuBuffers gpu)).posted r = job.rounds := by
  simp only [List.foldl_append]
  apply exists_run_of_measure (I := job.Inv (· = job.root) gpu) (D := fun s => ∀ r, s.posted r = job.rounds) job.left
  · intro s hs hnot
    obtain ⟨e, he⟩ := exists_left_lt hs hnot
    exact ⟨e, inv_step hs fun r hr => hr ▸ waitsFor_root s e, he⟩
  · exact inv_root job cpuBuffers gpu es

end StagingJob

/-! ## The scratch layer -/

section Scratch

variable {E : ℕ} {ρ K : Type*}

/-- The call that `SharedFullContext.load` makes under a quantisation. Cells are modelled by whose they are, and no
postprocessing changes that. -/
def prepareWeight (q : Quant) (store : Finset (Fin E)) (m : Method E) (onlyExperts : Option (List (Fin E)))
    (root : ρ) : StagingJob ρ (Fin E) K (Option (Fin E)) where
  root := root
  cpuExpertIds := whereTrue (streamed q m.gpuExpertsMask onlyExperts)
  nodup := whereTrue_nodup _
  store := fun _ e _ => cpuBytes store e
  postprocessExpert := id

/-- Phase 1: the residents of the decode layer, for the quantisations that take them from there. -/
def copyResidents (q : Quant) (m : Method E) (e : Fin E) : Option (Fin E) :=
  if q.takesResidents ∧ e ∈ m.gpuExpertsMask then m.residentRow e else none

/-- The overlay that ends `_prepare_weight_w4afp8`, skipped in the narrow mode. -/
def overlayResidents (q : Quant) (m : Method E) (onlyExperts : Option (List (Fin E))) (gpu : Fin E → Option (Fin E))
    (e : Fin E) : Option (Fin E) :=
  match q, onlyExperts with
  | .w4afp8, none => if e ∈ m.gpuExpertsMask then m.residentRow e else gpu e
  | _, _ => gpu e

/-- **The pipeline loads the scratch layer.** Whatever the order of its steps, the rows that phase 1, the pipeline and
the overlay leave on the root are those of `load`. -/
theorem load_of_pipeline [DecidableEq ρ] [DecidableEq K] [Fintype ρ] [Fintype K] (q : Quant) (store : Finset (Fin E))
    (m : Method E) (onlyExperts : Option (List (Fin E))) (root : ρ) (cpuBuffers : ρ → ℕ → K → Option (Fin E))
    (es : List (StagingStep ρ K)) :
    let job := prepareWeight q store m onlyExperts root
    let s := es.foldl job.step (job.init cpuBuffers fun _ e _ => copyResidents q m e)
    s.posted root = job.rounds →
      ∀ k, overlayResidents q m onlyExperts (fun e => s.gpu root e k) = load q store m onlyExperts := by
  intro job s hdone k
  obtain ⟨hoff, -, hon⟩ := job.pipeline_copies cpuBuffers (fun _ e _ => copyResidents q m e) es root hdone
  have hrow : ∀ e, s.gpu root e k =
      if e ∈ streamed q m.gpuExpertsMask onlyExperts then cpuBytes store e else copyResidents q m e := by
    intro e
    by_cases he : e ∈ streamed q m.gpuExpertsMask onlyExperts
    · rw [if_pos he, hon (.inl rfl) e (mem_whereTrue.2 he)]
      rfl
    · rw [if_neg he, hoff e fun hmem => he (mem_whereTrue.1 hmem)]
  funext e
  simp only [overlayResidents, hrow, load]
  have hmask : (if e ∈ m.gpuExpertsMaskᶜ then cpuBytes store e else copyResidents q m e) = if e ∈ m.gpuExpertsMask
      then copyResidents q m e else cpuBytes store e := by
    by_cases he : e ∈ m.gpuExpertsMask <;> simp [he]
  cases q with
  | int4 => simp [streamed]
  | w4afp8 =>
    cases onlyExperts with
    | none => simp [streamed]
    | some add => simp [streamed, copyResidents, Quant.takesResidents]
  | _ =>
    refine (show _ = _ from hmask).trans ?_
    by_cases he : e ∈ m.gpuExpertsMask <;> simp [he, copyResidents, Quant.takesResidents]

/-- A layer with expert 1 on the GPU, and its other two in host RAM. -/
def oneOnGpu : Method 3 where
  tpRank := 0
  numGpuExperts := 1
  gpuExpertsMask := {1}
  gpuExpertsMaskCuda := {1}
  ramExpertsMask := {0, 2}
  ramExpertsMaskCuda := {0, 2}
  logicalToGpuIndex := fun e => if e = 1 then 0 else -1
  logicalToGpuIndexCuda := fun e => if e = 1 then 0 else -1
  gpuIndexToLogical := [1]
  slots := fun i => if i = 0 then some 1 else none
  wrapper := none

/-- Two ranks stream all three experts, of which the store has two, and the resident one is laid over them. -/
theorem load_of_pipeline_run :
    let job : StagingJob Bool (Fin 3) Unit (Option (Fin 3)) := prepareWeight .w4afp8 {0, 2} oneOnGpu none false
    let s := StagingJob.laggingRun.foldl job.step
      (job.init (fun _ _ _ => none) fun _ e _ => copyResidents .w4afp8 oneOnGpu e)
    overlayResidents .w4afp8 oneOnGpu none (fun e => s.gpu false e ()) = load .w4afp8 {0, 2} oneOnGpu none :=
  load_of_pipeline .w4afp8 {0, 2} oneOnGpu none false _ _ (by decide +kernel) ()

end Scratch

end ExpertServe
