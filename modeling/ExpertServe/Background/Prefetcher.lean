import Mathlib.Algebra.Order.Group.Multiset
import Mathlib.Data.Finset.Card
import Mathlib.Data.List.Count
import Mathlib.Tactic.Abel
import ExpertServe.Lib.Run

/-!
# The background expert prefetcher

`_KtExpertPrefetcher` under any interleaving of its callers with its worker thread, one critical section a step.
A key is a layer and an expert. Payloads are numbered by the read that made them.

* `Prefetcher.step`: one critical section, or one move of the worker between two of them;
* `Prefetcher.Inv`: what every step keeps, `inv_step` the step lemma;
* `prefetcher_safe`: bounded memory, one read per key, no payload lost for lack of room or handed out twice, and
  nothing left behind by a failed read, in every state of every run.
-/

namespace ExpertServe

open Lib

/-- Where the worker thread is in `_run`. -/
inductive Worker (κ : Type*) where
  | idle
  | reading (key : κ)
  | completed (key : κ) (payload : ℕ)
  | failed (key : κ)
  | leaving (key : κ)

namespace Worker

variable {κ : Type*}

/-- The key the worker has taken off the queue. -/
def key : Worker κ → List κ
  | idle => []
  | reading k | completed k _ | failed k | leaving k => [k]

/-- That key, as long as its payload cannot be ready. -/
def unstored : Worker κ → List κ
  | idle | leaving _ => []
  | reading k | completed k _ | failed k => [k]

/-- The payload in the worker's hands. -/
def payload : Worker κ → Multiset ℕ
  | completed _ w => {w}
  | idle | reading _ | failed _ | leaving _ => 0

end Worker

/-- The prefetcher. The ready map is its set of keys with the payload at each. `pending` holds the keys whose
`request` has left its critical section and not yet put them on the queue. The last three fields are history:
how many reads have completed, the payloads `take` handed out, and those `prune` dropped. -/
structure Prefetcher (κ : Type*) where
  ready : Finset κ
  payload : κ → ℕ
  inflight : Finset κ
  pending : List κ
  queue : List κ
  worker : Worker κ
  reads : ℕ
  handed : List ℕ
  pruned : Multiset ℕ

/-- A step of a caller, or of the worker. -/
inductive PrefetchStep (κ : Type*) where
  | request (key : κ)
  | put (key : κ)
  | take (key : κ)
  | prune (keep : Finset κ)
  | get
  | read (succeeds : Bool)
  | store
  | finish

namespace Prefetcher

variable {κ : Type*}

/-- `__init__`. -/
def init : Prefetcher κ where
  ready := ∅
  payload _ := 0
  inflight := ∅
  pending := []
  queue := []
  worker := .idle
  reads := 0
  handed := []
  pruned := 0

/-- The keys whose read has been asked for and is not over. -/
def outstanding (s : Prefetcher κ) : List κ := s.pending ++ s.queue ++ s.worker.key

/-- Those of them whose payload cannot be ready. -/
def unread (s : Prefetcher κ) : List κ := s.pending ++ s.queue ++ s.worker.unstored

/-- The payloads of the ready map. -/
def payloads (s : Prefetcher κ) : Multiset ℕ := s.ready.val.map s.payload

variable [DecidableEq κ]

/-- `request`: a key that is not there yet goes in flight, while there is room. -/
def request (maxReady : ℤ) (s : Prefetcher κ) (k : κ) : Prefetcher κ :=
  if k ∈ s.ready ∨ k ∈ s.inflight then s
  else if maxReady ≤ (s.ready.card : ℤ) + s.inflight.card then s
  else { s with inflight := insert k s.inflight, pending := s.pending ++ [k] }

/-- The last statement of `request`, outside the lock. -/
def put (s : Prefetcher κ) (k : κ) : Prefetcher κ :=
  if k ∈ s.pending then { s with pending := s.pending.erase k, queue := s.queue ++ [k] } else s

/-- `take`. -/
def take (s : Prefetcher κ) (k : κ) : Prefetcher κ :=
  if k ∈ s.ready then { s with ready := s.ready.erase k, handed := s.handed ++ [s.payload k] } else s

/-- `prune`. -/
def prune (s : Prefetcher κ) (keep : Finset κ) : Prefetcher κ :=
  { s with
    ready := s.ready.filter (· ∈ keep)
    pruned := s.pruned + (s.ready.filter (· ∉ keep)).val.map s.payload }

/-- The worker takes a key off the queue. -/
def get (s : Prefetcher κ) : Prefetcher κ :=
  match s.worker, s.queue with
  | .idle, k :: rest => { s with worker := .reading k, queue := rest }
  | _, _ => s

/-- `read_expert` returns, or it raises or there is no wrapper. -/
def read (s : Prefetcher κ) (succeeds : Bool) : Prefetcher κ :=
  match s.worker with
  | .reading k =>
    if succeeds then { s with worker := .completed k s.reads, reads := s.reads + 1 }
    else { s with worker := .failed k }
  | _ => s

/-- The worker's first critical section: what was read is kept while there is room. -/
def store (maxReady : ℤ) (s : Prefetcher κ) : Prefetcher κ :=
  match s.worker with
  | .completed k w =>
    if (s.ready.card : ℤ) < maxReady then
      { s with ready := insert k s.ready, payload := Function.update s.payload k w, worker := .leaving k }
    else { s with worker := .leaving k }
  | _ => s

/-- The worker's last critical section. -/
def finish (s : Prefetcher κ) : Prefetcher κ :=
  match s.worker with
  | .failed k | .leaving k => { s with inflight := s.inflight.erase k, worker := .idle }
  | _ => s

/-- One step; a step that is not enabled changes nothing. -/
def step (maxReady : ℤ) (s : Prefetcher κ) : PrefetchStep κ → Prefetcher κ
  | .request k => s.request maxReady k
  | .put k => s.put k
  | .take k => s.take k
  | .prune keep => s.prune keep
  | .get => s.get
  | .read succeeds => s.read succeeds
  | .store => s.store maxReady
  | .finish => s.finish

/-! ## The invariant -/

/-- What holds between any two steps. -/
structure Inv (maxReady : ℤ) (s : Prefetcher κ) : Prop where
  oneRead : s.outstanding.Nodup
  inflight : s.inflight = s.outstanding.toFinset
  notReady : ∀ k ∈ s.unread, k ∉ s.ready
  bounded : (s.ready ∪ s.inflight).card ≤ maxReady.toNat
  conserved : (s.handed : Multiset ℕ) + s.pruned + s.payloads + s.worker.payload = Multiset.range s.reads

section Invariant

variable {maxReady : ℤ} {s : Prefetcher κ} {k : κ}

theorem inv_init : Inv maxReady (init : Prefetcher κ) where
  oneRead := by simp [init, outstanding, Worker.key]
  inflight := by simp [init, outstanding, Worker.key]
  notReady := by simp [init]
  bounded := by simp [init]
  conserved := by simp [init, payloads, Worker.payload]

/-- A payload in the worker's hands has room: its key is in flight, and not yet among the ready ones. -/
theorem Inv.room (h : Inv maxReady s) {w : ℕ} (hw : s.worker = .completed k w) : (s.ready.card : ℤ) < maxReady := by
  have hk : k ∈ s.inflight := by
    rw [h.inflight]
    simp [outstanding, hw, Worker.key]
  have hout : k ∉ s.ready := h.notReady k (by simp [unread, hw, Worker.unstored])
  have hsub : insert k s.ready ⊆ s.ready ∪ s.inflight := by
    intro i hi
    rcases Finset.mem_insert.mp hi with rfl | hi
    · exact Finset.mem_union_right _ hk
    · exact Finset.mem_union_left _ hi
  have hcard := (Finset.card_le_card hsub).trans h.bounded
  rw [Finset.card_insert_of_notMem hout] at hcard
  omega

/-- The worker's key is the last of the outstanding ones. -/
theorem Inv.of_key (h : Inv maxReady s) (hk : s.worker.key = [k]) :
    (s.pending ++ s.queue ++ [k]).Nodup ∧ s.inflight = (s.pending ++ s.queue ++ [k]).toFinset := by
  rw [← hk]
  exact ⟨h.oneRead, h.inflight⟩

/-- A request that is admitted adds one key that was nowhere. -/
theorem Inv.request (h : Inv maxReady s) (k : κ) : Inv maxReady (s.request maxReady k) := by
  unfold Prefetcher.request
  split
  · exact h
  · next hnew =>
    push Not at hnew
    split
    · exact h
    · next hroom =>
      have hout : k ∉ s.outstanding := by
        rw [← List.mem_toFinset, ← h.inflight]
        exact hnew.2
      have hperm : (s.pending ++ [k] ++ s.queue ++ s.worker.key).Perm (k :: s.outstanding) := by
        unfold outstanding
        simp only [List.append_assoc, List.singleton_append]
        exact List.perm_middle
      refine ⟨?_, ?_, ?_, ?_, h.conserved⟩
      · show (s.pending ++ [k] ++ s.queue ++ s.worker.key).Nodup
        rw [hperm.nodup_iff]
        exact List.nodup_cons.mpr ⟨hout, h.oneRead⟩
      · show insert k s.inflight = (s.pending ++ [k] ++ s.queue ++ s.worker.key).toFinset
        rw [List.toFinset_eq_of_perm _ _ hperm, List.toFinset_cons, h.inflight]
      · intro i hi
        show i ∉ s.ready
        by_cases hik : i = k
        · rw [hik]
          exact hnew.1
        · apply h.notReady i
          simp only [unread, List.mem_append, List.mem_singleton, hik, or_false] at hi ⊢
          exact hi
      · show (s.ready ∪ insert k s.inflight).card ≤ maxReady.toNat
        have hle : (s.ready ∪ insert k s.inflight).card ≤ s.ready.card + (s.inflight.card + 1) := by
          refine (Finset.card_union_le _ _).trans ?_
          have := Finset.card_insert_le k s.inflight
          omega
        omega

/-- Putting a pending key on the queue changes no set of keys. -/
theorem Inv.put (h : Inv maxReady s) (k : κ) : Inv maxReady (s.put k) := by
  unfold Prefetcher.put
  split
  · next hk =>
    have hperm (l : List κ) : (s.pending.erase k ++ (s.queue ++ [k]) ++ l).Perm (s.pending ++ s.queue ++ l) := by
      have hmove : (s.pending.erase k ++ (s.queue ++ [k])).Perm (k :: s.pending.erase k ++ s.queue) := by
        rw [← List.append_assoc]
        exact List.perm_append_singleton k _
      have hback : (k :: s.pending.erase k ++ s.queue).Perm (s.pending ++ s.queue) :=
        (List.perm_cons_erase hk).symm.append_right _
      exact (hmove.trans hback).append_right l
    refine ⟨?_, ?_, ?_, h.bounded, h.conserved⟩
    · exact (hperm _).nodup_iff.mpr h.oneRead
    · exact h.inflight.trans (List.toFinset_eq_of_perm _ _ (hperm _).symm)
    · intro i hi
      exact h.notReady i ((hperm _).mem_iff.mp hi)
  · exact h

/-- Dropping ready keys keeps every bound. -/
theorem Inv.card_union_le (h : Inv maxReady s) {t : Finset κ} (ht : t ⊆ s.ready) :
    (t ∪ s.inflight).card ≤ maxReady.toNat :=
  (Finset.card_le_card (Finset.union_subset_union_left ht)).trans h.bounded

theorem Inv.take (h : Inv maxReady s) (k : κ) : Inv maxReady (s.take k) := by
  unfold Prefetcher.take
  split
  · next hk =>
    refine ⟨h.oneRead, h.inflight, ?_, h.card_union_le (Finset.erase_subset _ _), ?_⟩
    · intro i hi hmem
      exact h.notReady i hi (Finset.mem_of_mem_erase hmem)
    · -- the payload moves from the ready map to the log
      have hsplit : s.payloads = s.payload k ::ₘ (s.ready.erase k).val.map s.payload := by
        unfold payloads
        rw [Finset.erase_val, ← Multiset.map_cons, Multiset.cons_erase hk]
      rw [← h.conserved, hsplit]
      show ((s.handed ++ [s.payload k] : List ℕ) : Multiset ℕ) + s.pruned + (s.ready.erase k).val.map s.payload +
        s.worker.payload = _
      rw [← Multiset.coe_add, Multiset.coe_singleton]
      simp only [← Multiset.singleton_add]
      abel
  · exact h

theorem Inv.prune (h : Inv maxReady s) (keep : Finset κ) : Inv maxReady (s.prune keep) := by
  refine ⟨h.oneRead, h.inflight, ?_, h.card_union_le (Finset.filter_subset _ _), ?_⟩
  · intro i hi hmem
    exact h.notReady i hi (Finset.mem_filter.mp hmem).1
  · have hsplit : s.payloads = (s.ready.filter (· ∈ keep)).val.map s.payload +
        (s.ready.filter (· ∉ keep)).val.map s.payload := by
      unfold payloads
      rw [← Multiset.map_add, Finset.filter_val, Finset.filter_val, Multiset.filter_add_not]
    show (s.handed : Multiset ℕ) + (s.pruned + (s.ready.filter (· ∉ keep)).val.map s.payload) +
      (s.ready.filter (· ∈ keep)).val.map s.payload + s.worker.payload = Multiset.range s.reads
    rw [← h.conserved, hsplit]
    abel

theorem Inv.get (h : Inv maxReady s) : Inv maxReady s.get := by
  unfold Prefetcher.get
  split
  · next k rest hw hq =>
    have hout : s.outstanding = s.pending ++ (k :: rest) := by simp [outstanding, hw, hq, Worker.key]
    have hperm : (s.pending ++ rest ++ [k]).Perm (s.pending ++ (k :: rest)) := by
      rw [List.append_assoc]
      exact List.Perm.append_left _ (List.perm_append_singleton k rest)
    refine ⟨?_, ?_, ?_, h.bounded, ?_⟩
    · show (s.pending ++ rest ++ [k]).Nodup
      rw [hperm.nodup_iff, ← hout]
      exact h.oneRead
    · show s.inflight = (s.pending ++ rest ++ [k]).toFinset
      rw [List.toFinset_eq_of_perm _ _ hperm, ← hout, h.inflight]
    · intro i hi
      apply h.notReady i
      have hi' : i ∈ s.pending ++ rest ++ [k] := hi
      simpa [unread, hw, hq, Worker.unstored, or_comm, or_left_comm] using hi'
    · rw [← h.conserved, hw]
      rfl
  · exact h

theorem Inv.read (h : Inv maxReady s) (succeeds : Bool) : Inv maxReady (s.read succeeds) := by
  unfold Prefetcher.read
  split
  · next k hw =>
    have hnone : s.worker.payload = 0 := by rw [hw]; rfl
    obtain ⟨hnodup, hset⟩ := h.of_key (k := k) (by rw [hw]; rfl)
    have hready : ∀ i ∈ s.pending ++ s.queue ++ [k], i ∉ s.ready := by
      have hunread : s.unread = s.pending ++ s.queue ++ [k] := by simp [unread, hw, Worker.unstored]
      rw [← hunread]
      exact h.notReady
    split
    · refine ⟨hnodup, hset, hready, h.bounded, ?_⟩
      show (s.handed : Multiset ℕ) + s.pruned + s.payloads + {s.reads} = Multiset.range (s.reads + 1)
      rw [Multiset.range_succ, ← h.conserved, hnone, add_zero, add_comm, Multiset.singleton_add]
    · refine ⟨hnodup, hset, hready, h.bounded, ?_⟩
      rw [← h.conserved, hnone]
      rfl
  · exact h

/-- The first critical section of the worker stores what was read. -/
theorem Inv.store (h : Inv maxReady s) : Inv maxReady (s.store maxReady) := by
  unfold Prefetcher.store
  split
  · next k w hw =>
    have hunread : s.unread = s.pending ++ s.queue ++ [k] := by simp [unread, hw, Worker.unstored]
    obtain ⟨hnodup, hset⟩ := h.of_key (k := k) (by rw [hw]; rfl)
    have hready : k ∉ s.ready := h.notReady k (by simp [hunread])
    have hk : k ∈ s.inflight := by
      rw [hset]
      simp
    rw [if_pos (h.room hw)]
    refine ⟨hnodup, hset, ?_, ?_, ?_⟩
    · intro i hi
      have hi' : i ∈ s.pending ++ s.queue := by simpa [unread, Worker.unstored] using hi
      have hne : i ≠ k := by
        rintro rfl
        exact (List.nodup_append.mp hnodup).2.2 i hi' i (by simp) rfl
      show i ∉ insert k s.ready
      rw [Finset.mem_insert, not_or]
      exact ⟨hne, h.notReady i (by rw [hunread]; exact List.mem_append_left _ hi')⟩
    · show (insert k s.ready ∪ s.inflight).card ≤ maxReady.toNat
      rw [Finset.insert_union, Finset.insert_eq_of_mem (Finset.mem_union_right _ hk)]
      exact h.bounded
    · have hsame : s.ready.val.map (Function.update s.payload k w) = s.payloads := by
        refine Multiset.map_congr rfl fun i hi => ?_
        have hne : i ≠ k := by
          rintro rfl
          exact hready hi
        exact Function.update_of_ne hne _ _
      have hstored : (insert k s.ready).val.map (Function.update s.payload k w) = w ::ₘ s.payloads := by
        rw [Finset.insert_val_of_notMem hready, Multiset.map_cons, Function.update_self, hsame]
      show (s.handed : Multiset ℕ) + s.pruned + (insert k s.ready).val.map (Function.update s.payload k w) + 0 = _
      rw [← h.conserved, hw, hstored, add_zero, ← Multiset.singleton_add]
      show _ = (s.handed : Multiset ℕ) + s.pruned + s.payloads + {w}
      abel
  · exact h

/-- The last critical section of the worker takes its key out of flight. -/
theorem Inv.finish (h : Inv maxReady s) : Inv maxReady s.finish := by
  have hover : ∀ k, s.worker.key = [k] → s.worker.payload = 0 →
      Inv maxReady { s with inflight := s.inflight.erase k, worker := .idle } := by
    intro k hkey hpay
    obtain ⟨hnodup, hset⟩ := h.of_key hkey
    have hk : k ∉ s.pending ++ s.queue := fun hmem => (List.nodup_append.mp hnodup).2.2 k hmem k (by simp) rfl
    refine ⟨?_, ?_, ?_, ?_, ?_⟩
    · show (s.pending ++ s.queue ++ []).Nodup
      rw [List.append_nil]
      exact (List.nodup_append.mp hnodup).1
    · show s.inflight.erase k = (s.pending ++ s.queue ++ []).toFinset
      rw [hset, List.append_nil, List.toFinset_append, List.toFinset_cons, List.toFinset_nil]
      ext i
      have hi : i ∈ (s.pending ++ s.queue).toFinset → i ≠ k := fun hi he => hk (he ▸ List.mem_toFinset.mp hi)
      simp only [Finset.mem_erase, Finset.mem_union, Finset.mem_insert, Finset.notMem_empty, or_false]
      tauto
    · intro i hi
      apply h.notReady i
      have hi' : i ∈ s.pending ++ s.queue := by simpa [unread, Worker.unstored] using hi
      exact List.mem_append_left _ hi'
    · refine le_trans (Finset.card_le_card ?_) h.bounded
      exact Finset.union_subset_union_right (Finset.erase_subset _ _)
    · rw [← h.conserved, hpay]
      rfl
  unfold Prefetcher.finish
  split
  · next k hw => exact hover k (by rw [hw]; rfl) (by rw [hw]; rfl)
  · next k hw => exact hover k (by rw [hw]; rfl) (by rw [hw]; rfl)
  · exact h

/-- **One step** keeps the invariant. -/
theorem inv_step (s : Prefetcher κ) (e : PrefetchStep κ) (h : Inv maxReady s) : Inv maxReady (s.step maxReady e) := by
  cases e with
  | request k => exact h.request k
  | put k => exact h.put k
  | take k => exact h.take k
  | prune keep => exact h.prune keep
  | get => exact h.get
  | read succeeds => exact h.read succeeds
  | store => exact h.store
  | finish => exact h.finish

end Invariant

/-! ## Safety -/

/-- What the callers rely on: the keys ready or in flight fit the maximum, no key has two reads outstanding, a
completed read finds room and is then ready, handed out or pruned, no payload is handed out twice, and once the
worker is done with a failed read its key is neither in flight nor ready. -/
structure Safe (maxReady : ℤ) (s : Prefetcher κ) : Prop where
  bounded : (s.ready ∪ s.inflight).card ≤ maxReady.toNat
  oneRead : s.outstanding.Nodup
  inflight : ∀ k, k ∈ s.inflight ↔ k ∈ s.outstanding
  room : ∀ k w, s.worker = .completed k w → k ∈ (s.store maxReady).ready ∧ (s.store maxReady).payload k = w
  kept : ∀ w < s.reads, w ∈ s.handed ∨ w ∈ s.pruned ∨ (∃ k ∈ s.ready, s.payload k = w) ∨ ∃ k, s.worker = .completed k w
  handedOnce : s.handed.Nodup
  failedGone : ∀ k, s.worker = .failed k →
    k ∉ s.finish.inflight ∧ k ∉ s.finish.ready

theorem Inv.safe {maxReady : ℤ} {s : Prefetcher κ} (h : Inv maxReady s) : Safe maxReady s where
  bounded := h.bounded
  oneRead := h.oneRead
  inflight k := by rw [h.inflight, List.mem_toFinset]
  room k w hw := by
    have hroom := h.room hw
    unfold Prefetcher.store
    simp [hw, hroom]
  kept w hlt := by
    have hmem : w ∈ (s.handed : Multiset ℕ) + s.pruned + s.payloads + s.worker.payload := by
      rw [h.conserved]
      exact Multiset.mem_range.mpr hlt
    simp only [Multiset.mem_add, Multiset.mem_coe, or_assoc] at hmem
    rcases hmem with hhanded | hpruned | hready | hworker
    · exact Or.inl hhanded
    · exact Or.inr (Or.inl hpruned)
    · exact Or.inr (Or.inr (Or.inl (by simpa [payloads] using hready)))
    · refine Or.inr (Or.inr (Or.inr ?_))
      cases hw : s.worker with
      | completed k w' =>
        rw [hw] at hworker
        exact ⟨k, by rw [Multiset.mem_singleton.mp hworker]⟩
      | _ =>
        rw [hw] at hworker
        exact absurd hworker (Multiset.notMem_zero w)
  handedOnce := by
    have hnodup : ((s.handed : Multiset ℕ) + s.pruned + s.payloads + s.worker.payload).Nodup := by
      rw [h.conserved]
      exact Multiset.nodup_range _
    simp only [add_assoc] at hnodup
    exact (Multiset.nodup_add.mp hnodup).1
  failedGone k hk := by
    have hready : k ∉ s.ready := h.notReady k (by simp [unread, hk, Worker.unstored])
    unfold Prefetcher.finish
    simp [hk, hready]

/-- **The prefetcher is safe.** For every maximum, in every state of every interleaving of `request`, `take` and
`prune` calls with the steps of the worker, whichever reads fail. -/
theorem prefetcher_safe (maxReady : ℤ) (es : List (PrefetchStep κ)) :
    StatesHold (step maxReady) (Safe maxReady) (init : Prefetcher κ) es := by
  apply StatesHold.mono fun s h => Inv.safe h
  exact StatesHold.of_invariant inv_step inv_init es

end Prefetcher

end ExpertServe
