import ExpertServe.Batch.PrefillAdder
import Mathlib.Algebra.BigOperators.Ring.List
import Mathlib.Data.List.Perm.Basic
import Mathlib.Data.Rat.Floor

/-!
# A round of the scheduler

Between two forwards the scheduler decides whether to prefill: a chunked request goes on, and waiting requests are
offered to a `PrefillAdder` in the order of arrival until one is refused. Running requests that were given up for them
are queued again, and memory is allocated for the batch.

* `Scheduler.pickBatch`, `Scheduler.getNewBatchPrefillRaw`: one round;
* `round_fits`: the batch fits into the KV pool, so its memory is found;
* `round_cuts`: without preemption a round fails for want of memory only, and of its batch only the request is cut that
  it remembers;
* `round_keeps_iff`: when a round loses no request, and which it loses;
* `idle_serves_iff`: when an idle server serves its queue at all.
-/

namespace ExpertServe.Prefill

open Lib

/-- The limits of a round. -/
structure Limits where
  maxPrefillTokens : ℤ
  chunkedPrefillSize : Option ℤ
  ppMaxMicroBatchSize : ℤ
  isMixedChunk : Bool := false
  /-- `enable_priority_scheduling`, which is `try_preemption` too. -/
  tryPreemption : Bool := false
  maxQueuedRequests : Option ℕ := none
  /-- What the prefill delayer answers for a request. -/
  allow : ℕ → Bool := fun _ => true

structure Scheduler (ν τ α : Type*) where
  waitingQueue : List (Req ν α)
  /-- The requests of the running batch. -/
  running : List (Req ν α)
  batchIsFull : Bool
  chunkedReq : Option (Req ν α)
  pool : τ
  /-- The requests that were aborted with a message, for the queue was full. -/
  aborted : List (Req ν α) := []

section Source

variable {ν τ α : Type*} [Field α] [LinearOrder α] [FloorRing α] (s : Setup ν τ α) (lim : Limits)

/-- `calc_priority` of the policy `fcfs`. -/
def calcPriority (queue : List (Req ν α)) : List (Req ν α) :=
  if lim.tryPreemption then
    Argsort.stable.asc (fun r : Req ν α => toLex (r.priority * s.prioritySign, r.waitQueueEntryTime)) queue
  else queue

/-- Room for a request in the batch, made by preemption where it is tried. -/
def makeRoom (full : Bool) (a : Adder ν τ α) (req : Req ν α) : Bool × Adder ν τ α :=
  if ¬ full then (true, a) else if ¬ lim.tryPreemption then (false, a) else a.preemptToSchedule s req

/-- The loop over the waiting queue. -/
def admitWaiting : List (Req ν α) → Bool → Adder ν τ α → Bool × Adder ν τ α
  | [], full, a => (full, a)
  | req :: rest, full, a =>
    let full := full || decide (lim.ppMaxMicroBatchSize - a.running.length ≤ a.canRunList.length)
    let (go, a) := makeRoom s lim full a req
    if ¬ go then (full, a)
    else
      let (res, a) := a.addOneReq s (s.initNextRoundInput a.pool req) (lim.allow req.rid)
      if res = .continue then admitWaiting rest full a
      else if res = .noToken then (decide (a.canRunList ≠ [] ∨ a.running ≠ []), a)
      else (full, a)

/-- The preempted requests, with the times when they are queued again. -/
def Adder.requeued (a : Adder ν τ α) : List (Req ν α × α) := a.preemptList.zipIdx.map fun x => (x.1, s.clock x.2)

namespace Scheduler

variable (sch : Scheduler ν τ α)

/-- The adder of a round. -/
def adder : Adder ν τ α :=
  s.adder sch.pool sch.running lim.maxPrefillTokens lim.chunkedPrefillSize
    (if lim.isMixedChunk then sch.running.length else 0)

/-- The adder when the chunked request has gone on; `none` is a raise. -/
def start : Option (Option (Req ν α) × Adder ν τ α) :=
  sch.chunkedReq.elim (some (none, sch.adder s lim)) fun r => (sch.adder s lim).addChunkedReq s r.initNextRoundInput

/-- `_abort_on_queued_limit`: the queue as it is left, and whom it aborts: the request itself, or a less important one
that waits. There must be one to choose among. -/
def abortOnQueuedLimit (queue : List (Req ν α)) (req : Req ν α) : Option (List (Req ν α) × Option (Req ν α)) :=
  if lim.maxQueuedRequests.all (queue.length + 1 ≤ ·) then some (queue, none)
  else if ¬ lim.tryPreemption then some (queue, some req)
  else
    -- the first of the largest
    (Argsort.stable.desc (fun x : Req ν α × ℕ => toLex (x.1.priority * s.prioritySign, x.1.waitQueueEntryTime))
        queue.zipIdx).head?.map fun (r, idx) =>
      if req.priority * s.prioritySign < r.priority * s.prioritySign then (queue.eraseIdx idx, some r)
      else (queue, some req)

/-- `_add_request_to_queue`, at a time. -/
def addRequestToQueue (req : Req ν α) (now : α) : Option (Scheduler ν τ α) :=
  (abortOnQueuedLimit s lim sch.waitingQueue req).map fun (queue, aborted) =>
    let sch := { sch with waitingQueue := queue, aborted := sch.aborted ++ aborted.toList }
    if aborted.any (·.rid = req.rid) then sch
    else { sch with waitingQueue := queue ++ [{ req with waitQueueEntryTime := now }] }

def addRequestsToQueue : List (Req ν α × α) → Scheduler ν τ α → Option (Scheduler ν τ α)
  | [], sch => some sch
  | (req, now) :: reqs, sch => (sch.addRequestToQueue s lim req now).bind (addRequestsToQueue reqs)

/-- The scheduler with the batch of an adder taken out of its queue. -/
def without (queue : List (Req ν α)) (full : Bool) (cont : Option (Req ν α)) (a : Adder ν τ α) : Scheduler ν τ α where
  waitingQueue := queue.filter fun r => ¬ a.canRunList.any (·.rid = r.rid)
  running := a.running
  batchIsFull := full
  chunkedReq := cont
  pool := a.pool
  aborted := sch.aborted

/-- `_get_new_batch_prefill_raw` up to the `ScheduleBatch`: the requests of the batch, if there is one; the outer `none`
is a raise. -/
def pickBatch : Option (Option (List (Req ν α)) × Scheduler ν τ α) :=
  let full := sch.batchIsFull && !lim.tryPreemption
  if (full ∨ sch.waitingQueue = []) ∧ sch.chunkedReq = none then some (none, { sch with batchIsFull := full })
  else if lim.ppMaxMicroBatchSize - sch.running.length ≤ 0 ∧ sch.chunkedReq = none ∧ ¬ lim.tryPreemption then
    some (none, { sch with batchIsFull := true })
  else
    let queue := calcPriority s lim sch.waitingQueue
    (sch.start s lim).bind fun (cont, a) =>
      let (full, a) := admitWaiting s lim queue full a
      if a.canRunList = [] then some (none, ⟨queue, a.running, full, cont, a.pool, sch.aborted⟩)
      else
        ((sch.without queue full cont a).addRequestsToQueue s lim (a.requeued s)).bind fun sch =>
          -- `assert self.chunked_req is None`
          if a.newChunkedReq.isSome ∧ cont.isSome then none
          else some (some a.canRunList, { sch with chunkedReq := a.newChunkedReq.orElse fun _ => cont })

/-- The cached and the new tokens of the requests of a batch. -/
def extendLens (batch : List (Req ν α)) : List (ℕ × ℤ) := batch.map fun r => (r.prefixIndices, r.extendInputLen)

/-- `_get_new_batch_prefill_raw`: the batch, if there is one, with its memory; the outer `none` is a raise. -/
def getNewBatchPrefillRaw : Option (Option (List (Req ν α)) × Scheduler ν τ α) :=
  (sch.pickBatch s lim).bind fun (batch, sch) =>
    batch.elim (some (none, sch)) fun batch =>
      (s.treeCache.allocForExtend (extendLens batch) sch.pool).map fun pool => (some batch, { sch with pool := pool })

/-- What comes in before a round: requests with their times, and the answers of the prefill delayer. -/
structure Turn (ν α : Type*) where
  arrivals : List (Req ν α × α)
  allow : ℕ → Bool

/-- The first batch in a number of rounds. -/
def firstBatch : List (Turn ν α) → Scheduler ν τ α → Option (List (Req ν α))
  | [], _ => none
  | turn :: turns, sch => (sch.addRequestsToQueue s lim turn.arrivals).bind fun sch =>
    (sch.getNewBatchPrefillRaw s { lim with allow := turn.allow }).bind fun (batch, sch) =>
      batch.elim (firstBatch turns sch) some

end Scheduler

/-- The allocator finds the pages that there is room for. -/
def Setup.Allocates : Prop :=
  ∀ (reqs : List (ℕ × ℤ)) t, (∀ x ∈ reqs, 0 ≤ x.2) →
    (reqs.map fun x => s.ceilPagedTokens x.2).sum ≤ s.treeCache.room t → (s.treeCache.allocForExtend reqs t).isSome

end Source

/-! ## The loop -/

section Loop

variable {ν τ α : Type*} [Field α] [LinearOrder α] [FloorRing α] {s : Setup ν τ α} {lim : Limits} {a : Adder ν τ α}
  {req : Req ν α}

variable (lim) in
/-- What holds through preemption and through every offer holds after the loop. -/
theorem admitWaiting_invariant (P : Adder ν τ α → Prop) (queue : List (Req ν α))
    (hpreempt : lim.tryPreemption = true → ∀ a, ∀ r ∈ queue, P a → P (a.preemptToSchedule s r).2)
    (hadd : ∀ a, ∀ r ∈ queue, P a → P (a.addOneReq s (s.initNextRoundInput a.pool r) (lim.allow r.rid)).2)
    (full : Bool) (h : P a) : P (admitWaiting s lim queue full a).2 := by
  induction queue generalizing full a with
  | nil => exact h
  | cons r rest ih =>
    have hrest : ∀ full (a : Adder ν τ α), P a → P (admitWaiting s lim rest full a).2 := fun full a =>
      ih (fun htry a r hr => hpreempt htry a r (List.mem_cons_of_mem _ hr))
        (fun a r hr => hadd a r (List.mem_cons_of_mem _ hr)) full
    unfold admitWaiting
    dsimp only
    generalize hfull : (full || decide (lim.ppMaxMicroBatchSize - a.running.length ≤ a.canRunList.length)) = full'
    have hroom : P (makeRoom s lim full' a r).2 := by
      unfold makeRoom
      split
      · exact h
      · split
        · exact h
        · next htry => exact hpreempt (by simpa using htry) a r List.mem_cons_self h
    generalize makeRoom s lim full' a r = made at hroom
    split
    · exact hroom
    · have hnext := hadd _ r List.mem_cons_self hroom
      split
      · exact hrest _ _ hnext
      · split <;> exact hnext

end Loop

/-! ## The queue -/

section Queue

variable {ν τ α : Type*} [LinearOrder α] {s : Setup ν τ α} {lim : Limits} {sch sch' : Scheduler ν τ α} {req : Req ν α}

/-- The limit aborts nobody, the request itself, or one that waits. -/
theorem abortOnQueuedLimit_cases {queue queue' : List (Req ν α)} {aborted : Option (Req ν α)}
    (h : Scheduler.abortOnQueuedLimit s lim queue req = some (queue', aborted)) :
    (aborted = none ∧ queue' = queue) ∨ (aborted = some req ∧ queue' = queue) ∨
      ∃ r, aborted = some r ∧ (r :: queue').Perm queue := by
  unfold Scheduler.abortOnQueuedLimit at h
  split at h
  · cases h
    exact .inl ⟨rfl, rfl⟩
  · split at h
    · cases h
      exact .inr (.inl ⟨rfl, rfl⟩)
    · obtain ⟨⟨r, idx⟩, hmax, heq⟩ := Option.map_eq_some_iff.1 h
      dsimp only at heq
      split at heq
      · obtain ⟨rfl, rfl⟩ := Prod.mk.inj heq
        have hget : queue[idx]? = some r :=
          List.mk_mem_zipIdx_iff_getElem?.1 (Argsort.stable.mem_desc.1 (List.mem_of_head? hmax))
        obtain ⟨hlt, rfl⟩ := List.getElem?_eq_some_iff.1 hget
        exact .inr (.inr ⟨_, rfl, List.getElem_cons_eraseIdx_perm hlt⟩)
      · cases heq
        exact .inr (.inl ⟨rfl, rfl⟩)

/-- Only the queue changes, and who has been aborted. -/
theorem addRequestToQueue_eq {now : α} (h : sch.addRequestToQueue s lim req now = some sch') :
    sch' = { sch with waitingQueue := sch'.waitingQueue, aborted := sch'.aborted } := by
  obtain ⟨⟨queue, aborted⟩, -, rfl⟩ := Option.map_eq_some_iff.1 h
  dsimp only
  split <;> rfl

theorem addRequestsToQueue_eq {reqs : List (Req ν α × α)}
    (h : Scheduler.addRequestsToQueue s lim reqs sch = some sch') :
    sch' = { sch with waitingQueue := sch'.waitingQueue, aborted := sch'.aborted } := by
  induction reqs generalizing sch with
  | nil =>
    cases h
    rfl
  | cons req reqs ih =>
    obtain ⟨sch₁, hadd, hrest⟩ := Option.bind_eq_some_iff.1 h
    have hone := addRequestToQueue_eq hadd
    have hall := ih hrest
    rw [hone] at hall
    exact hall

/-- The requests `rids` have come into the queue, and the requests `out` have been aborted. -/
structure Queued (sch sch' : Scheduler ν τ α) (rids out : List ℕ) : Prop where
  aborted : sch'.aborted.map (·.rid) = sch.aborted.map (·.rid) ++ out
  perm : (sch'.waitingQueue.map (·.rid) ++ out).Perm (rids ++ sch.waitingQueue.map (·.rid))

/-- One request. -/
theorem addRequestToQueue_queued {now : α} (h : sch.addRequestToQueue s lim req now = some sch')
    (hfresh : req.rid ∉ sch.waitingQueue.map (·.rid)) : ∃ out, Queued sch sch' [req.rid] out := by
  obtain ⟨⟨queue, aborted⟩, hlimit, rfl⟩ := Option.map_eq_some_iff.1 h
  rcases abortOnQueuedLimit_cases hlimit with ⟨rfl, rfl⟩ | ⟨rfl, rfl⟩ | ⟨r, rfl, hperm⟩
  · exact ⟨[], by simp, by simp⟩
  · exact ⟨[req.rid], by simp, by simp⟩
  · have hrids : (r.rid :: queue.map (·.rid)).Perm (sch.waitingQueue.map (·.rid)) :=
      hperm.map fun r : Req ν α => r.rid
    have hother : r.rid ≠ req.rid := fun heq => hfresh (heq ▸ hrids.subset List.mem_cons_self)
    refine ⟨[r.rid], by simp [hother], ?_⟩
    have hback : ((queue.map (·.rid) ++ [req.rid]) ++ [r.rid]).Perm (req.rid :: r.rid :: queue.map (·.rid)) := by
      rw [List.append_assoc]
      exact List.perm_append_comm
    simpa [hother] using hback.trans (hrids.cons req.rid)

theorem addRequestsToQueue_queued {reqs : List (Req ν α × α)}
    (h : Scheduler.addRequestsToQueue s lim reqs sch = some sch')
    (hnodup : (reqs.map (·.1.rid) ++ sch.waitingQueue.map (·.rid)).Nodup) :
    ∃ out, Queued sch sch' (reqs.map (·.1.rid)) out := by
  induction reqs generalizing sch with
  | nil =>
    cases h
    exact ⟨[], (List.append_nil _).symm, by simp⟩
  | cons req reqs ih =>
    obtain ⟨sch₁, hadd, hrest⟩ := Option.bind_eq_some_iff.1 h
    obtain ⟨hhead, htail⟩ := List.nodup_cons.1 hnodup
    obtain ⟨out, hone⟩ := addRequestToQueue_queued hadd fun hmem => hhead (List.mem_append_right _ hmem)
    -- what waits now waited before, or is the request
    have hmoved : (reqs.map (·.1.rid) ++ (sch₁.waitingQueue.map (·.rid) ++ out)).Perm
        ((req :: reqs).map (·.1.rid) ++ sch.waitingQueue.map (·.rid)) :=
      (hone.perm.append_left _).trans List.perm_middle
    have hnodup₁ : (reqs.map (·.1.rid) ++ sch₁.waitingQueue.map (·.rid)).Nodup := by
      have hall := hmoved.nodup_iff.2 hnodup
      rw [← List.append_assoc] at hall
      exact hall.of_append_left
    obtain ⟨out', hall⟩ := ih hrest hnodup₁
    refine ⟨out ++ out', by rw [hall.aborted, hone.aborted, List.append_assoc], ?_⟩
    have hwait : (sch'.waitingQueue.map (·.rid) ++ (out ++ out')).Perm
        ((sch'.waitingQueue.map (·.rid) ++ out') ++ out) := by
      rw [List.append_assoc]
      exact List.perm_append_comm.append_left _
    refine hwait.trans ((hall.perm.append_right out).trans ?_)
    rw [List.append_assoc]
    exact hmoved

/-- The requests that wait, that run, and that were aborted with a message. -/
def Scheduler.rids (sch : Scheduler ν τ α) : List ℕ := (sch.waitingQueue ++ sch.running ++ sch.aborted).map (·.rid)

omit [LinearOrder α] in
/-- What comes into the queue waits then, or is accounted for. -/
theorem Queued.rids_perm {rids out : List ℕ} (h : Queued sch sch' rids out)
    (hrunning : sch'.running = sch.running) : sch'.rids.Perm (rids ++ sch.rids) := by
  unfold Scheduler.rids
  simp only [List.map_append, hrunning, h.aborted, List.append_assoc]
  have hlast : (sch.running.map (·.rid) ++ (sch.aborted.map (·.rid) ++ out)).Perm
      (out ++ (sch.running.map (·.rid) ++ sch.aborted.map (·.rid))) := by
    rw [← List.append_assoc]
    exact List.perm_append_comm
  refine (hlast.append_left _).trans ?_
  have hfirst := h.perm.append_right (sch.running.map (·.rid) ++ sch.aborted.map (·.rid))
  simpa only [List.append_assoc] using hfirst

end Queue

/-! ## One round -/

section Round

variable {ν τ α : Type*} [Field α] [LinearOrder α] [FloorRing α] {s : Setup ν τ α} {lim : Limits}
  {sch sch' : Scheduler ν τ α} {res : Option (List (Req ν α))}

/-- A round gives up at once, takes nothing, or takes a batch. -/
theorem pickBatch_cases (h : sch.pickBatch s lim = some (res, sch')) :
    (res = none ∧ sch.chunkedReq = none ∧ ∃ full, sch' = { sch with batchIsFull := full }) ∨
      ∃ cont a full, sch.start s lim = some (cont, a) ∧
        ∃ full' a', admitWaiting s lim (calcPriority s lim sch.waitingQueue) full a = (full', a') ∧
        (a'.canRunList = [] ∧ res = none ∧
            sch' = ⟨calcPriority s lim sch.waitingQueue, a'.running, full', cont, a'.pool, sch.aborted⟩ ∨
          a'.canRunList ≠ [] ∧ res = some a'.canRunList ∧
            ∃ sch₁, (sch.without (calcPriority s lim sch.waitingQueue) full' cont a').addRequestsToQueue s lim
                (a'.requeued s) = some sch₁ ∧
              sch' = { sch₁ with chunkedReq := a'.newChunkedReq.orElse fun _ => cont }) := by
  unfold Scheduler.pickBatch at h
  dsimp only at h
  split at h
  · next hidle =>
    cases h
    exact .inl ⟨rfl, hidle.2, _, rfl⟩
  · split at h
    · next hfull =>
      cases h
      exact .inl ⟨rfl, hfull.2.1, _, rfl⟩
    · obtain ⟨⟨cont, a⟩, hstart, hloop⟩ := Option.bind_eq_some_iff.1 h
      refine .inr ⟨cont, a, sch.batchIsFull && !lim.tryPreemption, hstart, _, _, rfl, ?_⟩
      dsimp only at hloop
      split at hloop
      · next hnone =>
        cases hloop
        exact .inl ⟨hnone, rfl, rfl⟩
      · next hsome =>
        obtain ⟨sch₁, hqueue, hassert⟩ := Option.bind_eq_some_iff.1 hloop
        split at hassert
        · cases hassert
        · cases hassert
          exact .inr ⟨hsome, rfl, sch₁, hqueue, rfl⟩

/-- It fails only if the chunked request does, if a preempted one does not get back, or if two are cut. -/
theorem pickBatch_fails (h : sch.pickBatch s lim = none) : sch.start s lim = none ∨
    ∃ cont a full, sch.start s lim = some (cont, a) ∧
      ∃ full' a', admitWaiting s lim (calcPriority s lim sch.waitingQueue) full a = (full', a') ∧
        ((sch.without (calcPriority s lim sch.waitingQueue) full' cont a').addRequestsToQueue s lim
            (a'.requeued s) = none ∨
          a'.newChunkedReq.isSome ∧ cont.isSome) := by
  unfold Scheduler.pickBatch at h
  dsimp only at h
  split at h
  · cases h
  · split at h
    · cases h
    · cases hstart : sch.start s lim with
      | none => exact .inl rfl
      | some start =>
        rw [hstart] at h
        refine .inr ⟨start.1, start.2, sch.batchIsFull && !lim.tryPreemption, rfl, _, _, rfl, ?_⟩
        simp only [Option.bind_some] at h
        split at h
        · cases h
        · cases hqueue : (sch.without (calcPriority s lim sch.waitingQueue) _ _ _).addRequestsToQueue s lim _ with
          | none => exact .inl rfl
          | some sch₁ =>
            have hassert := Option.bind_eq_none_iff.1 h sch₁ hqueue
            split at hassert
            · next hboth => exact .inr hboth
            · cases hassert

/-- A batch that fits gets its memory. -/
theorem round_of_fits (halloc : s.Allocates) {batch : List (Req ν α)}
    (h : sch.pickBatch s lim = some (some batch, sch'))
    (hfits : (batch.map fun r => s.ceilPagedTokens r.extendInputLen).sum ≤ s.treeCache.room sch'.pool)
    (hlen : ∀ r ∈ batch, 0 ≤ r.extendInputLen) :
    ∃ pool, sch.getNewBatchPrefillRaw s lim = some (some batch, { sch' with pool := pool }) := by
  have hmem : (s.treeCache.allocForExtend (Scheduler.extendLens batch) sch'.pool).isSome := by
    apply halloc
    · intro x hx
      obtain ⟨r, hr, rfl⟩ := List.mem_map.1 hx
      exact hlen r hr
    · unfold Scheduler.extendLens
      rw [List.map_map]
      exact hfits
  obtain ⟨pool, hpool⟩ := Option.isSome_iff_exists.1 hmem
  refine ⟨pool, ?_⟩
  unfold Scheduler.getNewBatchPrefillRaw
  rw [h, Option.bind_some]
  show (s.treeCache.allocForExtend (Scheduler.extendLens batch) sch'.pool).map _ = _
  rw [hpool, Option.map_some]

/-- A round is the choice of a batch and its memory. -/
theorem round_eq_some (h : sch.getNewBatchPrefillRaw s lim = some (res, sch')) :
    ∃ pool, sch.pickBatch s lim = some (res, { sch' with pool := pool }) := by
  obtain ⟨⟨batch, sch₁⟩, hpick, hmem⟩ := Option.bind_eq_some_iff.1 h
  cases batch with
  | none =>
    cases hmem
    exact ⟨sch'.pool, hpick⟩
  | some batch =>
    obtain ⟨pool, -, heq⟩ := Option.map_eq_some_iff.1 hmem
    cases heq
    exact ⟨sch₁.pool, hpick⟩

end Round

/-! ## A small server -/

/-- Free pages, the pages of a cached prefix, and how often the prefix is locked. -/
structure Pages where
  free : ℕ
  cached : ℕ
  locks : ℕ

/-- What is left of the pages when some are taken; the prefix is evicted for them if it has to be and may be. -/
def Pages.take (pages : ℕ) (t : Pages) : Option Pages :=
  if pages ≤ t.free then some { t with free := t.free - pages }
  else if t.locks = 0 ∧ pages ≤ t.free + t.cached then some ⟨t.free + t.cached - pages, 0, 0⟩
  else none

/-- A cache of one prefix, which the request 0 shares. -/
def onePrefix (page : ℕ) (held : ℕ → ℕ) : TreeCache Bool Pages where
  availableSize t := page * t.free
  evictableSize t := if t.locks = 0 then page * t.cached else 0
  matchPrefix rid len t := if rid = 0 ∧ page * t.cached ≤ len then (page * t.cached, true) else (0, false)
  incLockRef n t := if n then { t with locks := t.locks + 1 } else t
  decLockRef n t := if n then { t with locks := t.locks - 1 } else t
  releaseReq rid _ t := { t with free := t.free + held rid }
  allocForExtend reqs t := t.take (reqs.map fun x => -(-x.2 / (page : ℤ))).sum.toNat
  disable := false

theorem onePrefix_lawful (page : ℕ) (held : ℕ → ℕ) : (onePrefix page held).Lawful where
  decLockRef_incLockRef n t := by cases n <;> rfl
  room_incLockRef n t := by
    cases n with
    | false => exact le_rfl
    | true =>
      show page * t.free + 0 ≤ page * t.free + if t.locks = 0 then page * t.cached else 0
      omega
  room_releaseReq rid _ t := by
    have hle : page * t.free ≤ page * (t.free + held rid) := Nat.mul_le_mul_left page (Nat.le_add_right _ _)
    exact Nat.add_le_add_right hle _
  matchPrefix_le rid len t := by
    show (if rid = 0 ∧ page * t.cached ≤ len then (page * t.cached, true) else (0, false)).1 ≤ len
    split
    · next hall => exact hall.2
    · exact Nat.zero_le len

/-- The room is whole pages. -/
theorem room_onePrefix (page : ℕ) (held : ℕ → ℕ) (t : Pages) :
    (onePrefix page held).room t = page * (t.free + if t.locks = 0 then t.cached else 0) := by
  show page * t.free + (if t.locks = 0 then page * t.cached else 0) = _
  rw [mul_add, mul_ite, mul_zero]

theorem dvd_room_onePrefix (page : ℕ) (held : ℕ → ℕ) (t : Pages) : page ∣ (onePrefix page held).room t :=
  Dvd.intro _ (room_onePrefix page held t).symm

theorem Pages.take_isSome {pages : ℕ} {t : Pages} (h : pages ≤ t.free + if t.locks = 0 then t.cached else 0) :
    (t.take pages).isSome := by
  unfold Pages.take
  split
  · rfl
  · next hmany =>
    split at h
    · next hlocks => rw [if_pos ⟨hlocks, h⟩, Option.isSome_some]
    · exact absurd h hmany

/-- Its allocator finds the pages that there is room for. -/
theorem onePrefix_allocates {held : ℕ → ℕ} {s : Setup Bool Pages ℚ} (hpage : 0 < s.pageSize)
    (h : s.treeCache = onePrefix s.pageSize held) : s.Allocates := by
  intro reqs t _ hfits
  rw [h, room_onePrefix] at hfits
  have hsum : (reqs.map fun x => s.ceilPagedTokens x.2).sum =
      (reqs.map fun x => -(-x.2 / (s.pageSize : ℤ))).sum * s.pageSize := List.sum_map_mul_right _ _ _
  rw [hsum, mul_comm, Nat.cast_mul] at hfits
  have hpages := le_of_mul_le_mul_left hfits (by omega)
  rw [h]
  exact Pages.take_isSome (Int.toNat_le.2 hpages)

/-- A new request of `origin` tokens. -/
def request (rid origin : ℕ) (maxNewTokens priority : ℤ) : Req Bool ℚ where
  rid := rid
  originInputIds := origin
  outputIds := 0
  maxNewTokens := maxNewTokens
  ignoreEos := false
  logprobStartLen := none
  priority := priority
  waitQueueEntryTime := 0
  finished := false
  prefixIndices := 0
  lastNode := false
  extendInputLen := 0

/-- Pages of 16 tokens; the request 3 holds 25. -/
def pagedSetup : Setup Bool Pages ℚ where
  pageSize := 16
  treeCache := onePrefix 16 fun rid => if rid = 3 then 25 else 0
  newTokenRatio := 1 / 2
  clock i := i

def pagedLimits (requests : ℤ) (preempt : Bool) : Limits where
  maxPrefillTokens := 1024
  chunkedPrefillSize := some 128
  ppMaxMicroBatchSize := requests
  tryPreemption := preempt

/-- A request that has been decoding for 8 tokens. -/
def decoding : Req Bool ℚ := { request 3 392 40 0 with outputIds := 8 }

/-- A request of which 2 pages have been computed. -/
def cutAt (origin : ℕ) : Req Bool ℚ := { request 2 origin 8 0 with prefixIndices := 32 }

/-- A server with 20 free pages and 3 cached ones. -/
def twentyPages (waiting running : List (Req Bool ℚ)) (chunked : Option (Req Bool ℚ)) : Scheduler Bool Pages ℚ where
  waitingQueue := waiting
  running := running
  batchIsFull := false
  chunkedReq := chunked
  pool := ⟨20, 3, 0⟩

/-- A chunked request goes on, and two are waiting. -/
def busy : Scheduler Bool Pages ℚ :=
  twentyPages [request 0 80 8 0, request 1 50 8 0] [decoding] (some (cutAt 100))

/-- An important request is waiting that is too long. -/
def crowded : Scheduler Bool Pages ℚ := twentyPages [request 1 800 8 20] [decoding] none

/-! ## The batch fits -/

section Fits

variable {ν τ α : Type*} [Field α] [LinearOrder α] [IsStrictOrderedRing α] [FloorRing α] {s : Setup ν τ α}
  {lim : Limits} {sch sch' : Scheduler ν τ α} {batch : List (Req ν α)}

omit [Field α] [IsStrictOrderedRing α] [FloorRing α] in
theorem calcPriority_perm (queue : List (Req ν α)) : (calcPriority s lim queue).Perm queue := by
  unfold calcPriority
  split
  · exact Argsort.stable.asc_perm _ queue
  · exact List.Perm.refl queue

omit [Field α] [IsStrictOrderedRing α] [FloorRing α] in
theorem mem_calcPriority {queue : List (Req ν α)} {r : Req ν α} : r ∈ calcPriority s lim queue ↔ r ∈ queue :=
  (calcPriority_perm queue).mem_iff

theorem runningOffset_nonneg (hratio : 0 ≤ s.newTokenRatio) {r : Req ν α} (h : (r.outputIds : ℤ) ≤ r.maxNewTokens) :
    0 ≤ s.runningOffset r := by
  have hleft : 0 ≤ min (r.maxNewTokens - r.outputIds) s.clipMaxNewTokens :=
    le_min (by omega) (Int.natCast_nonneg _)
  exact mul_nonneg (Int.cast_nonneg hleft) hratio

/-- A round begins with as much reserved as it has counted, if there was a token for the chunked request. -/
theorem start_reserves (hpage : 0 < s.pageSize) (hpages : ∀ t, s.pageSize ∣ s.treeCache.room t)
    (hratio : 0 ≤ s.newTokenRatio) (hrunning : ∀ r ∈ sch.running, (r.outputIds : ℤ) ≤ r.maxNewTokens)
    (hchunked : ∀ r ∈ sch.chunkedReq, 0 ≤ r.maxNewTokens ∧ 1 ≤ (sch.adder s lim).remTotalTokens s)
    {cont : Option (Req ν α)} {a : Adder ν τ α} (h : sch.start s lim = some (cont, a)) :
    Reserves s (if lim.isMixedChunk then sch.running.length else 0) a := by
  have hadder : Reserves s (if lim.isMixedChunk then sch.running.length else 0) (sch.adder s lim) :=
    reserves_adder sch.pool (fun r hr => runningOffset_nonneg hratio (hrunning r hr)) _ _
  unfold Scheduler.start at h
  cases hr : sch.chunkedReq with
  | none =>
    rw [hr] at h
    cases h
    exact hadder
  | some r =>
    rw [hr] at h
    obtain ⟨hnew, hroom⟩ := hchunked r hr
    have hnew : 0 ≤ r.initNextRoundInput.maxNewTokens := hnew
    exact hadder.addChunkedReq hpage (hpages _) rfl hnew hroom h

omit [Field α] [LinearOrder α] [IsStrictOrderedRing α] [FloorRing α] in
/-- Of a request that is offered at least the last token is not cached. -/
theorem offered_prefix (hl : s.treeCache.Lawful) (pool : τ) (r : Req ν α) :
    (s.initNextRoundInput pool r).prefixIndices ≤ r.fillIds - 1 := by
  apply (hl.matchPrefix_le _ _ _).trans
  cases r.logprobStartLen with
  | none => exact le_rfl
  | some start => exact min_le_left _ _

omit [Field α] [LinearOrder α] [IsStrictOrderedRing α] [FloorRing α] in
theorem offered_nonneg (hl : s.treeCache.Lawful) (pool : τ) (r : Req ν α) :
    0 ≤ (s.initNextRoundInput pool r).extendInputLen := by
  have hle := offered_prefix hl pool r
  show 0 ≤ (r.fillIds : ℤ) - (s.initNextRoundInput pool r).prefixIndices
  omega

omit [Field α] [LinearOrder α] [IsStrictOrderedRing α] [FloorRing α] in
/-- A request that is offered is whole and not empty. -/
theorem offered (hl : s.treeCache.Lawful) (pool : τ) {r : Req ν α} (hsome : 1 ≤ r.fillIds) :
    ¬ (s.initNextRoundInput pool r).Cut ∧ 1 ≤ (s.initNextRoundInput pool r).extendInputLen := by
  refine ⟨not_not.2 rfl, ?_⟩
  have hle := offered_prefix hl pool r
  show 1 ≤ (r.fillIds : ℤ) - (s.initNextRoundInput pool r).prefixIndices
  omega

/-- A round begins, and what it begins with is cut at most once. -/
theorem start_oneCut (hpage : 0 < s.pageSize) (hratio : 0 ≤ s.newTokenRatio)
    (hrunning : ∀ r ∈ sch.running, (r.outputIds : ℤ) ≤ r.maxNewTokens)
    (hchunked : ∀ r ∈ sch.chunkedReq, 0 ≤ r.maxNewTokens ∧ lim.chunkedPrefillSize.isSome) :
    ∃ cont a, sch.start s lim = some (cont, a) ∧ OneCut s cont a ∧ Accounts s a ∧ a.preemptList = [] := by
  have hadder : Accounts s (sch.adder s lim) :=
    accounts_adder sch.pool (fun r hr => runningOffset_nonneg hratio (hrunning r hr)) _ _
  unfold Scheduler.start
  cases hr : sch.chunkedReq with
  | none => exact ⟨none, _, rfl, oneCut_adder _ _ _ _ _, hadder, rfl⟩
  | some r =>
    obtain ⟨hnew, hchunk⟩ := hchunked r hr
    have hnew : 0 ≤ r.initNextRoundInput.maxNewTokens := hnew
    have hwhole : ¬ r.initNextRoundInput.Cut := not_not.2 rfl
    cases hadd : (sch.adder s lim).addChunkedReq s r.initNextRoundInput with
    | none =>
      have hnone := Option.map_eq_none_iff.1 (Option.map_eq_none_iff.1 hadd)
      rw [hnone] at hchunk
      cases hchunk
    | some out =>
      refine ⟨out.1, out.2, hadd, oneCut_addChunkedReq hpage rfl rfl hwhole hadd, hadder.addChunkedReq hnew hadd, ?_⟩
      obtain ⟨chunk, -, rem, -, -, hout⟩ := addChunkedReq_eq hadd
      exact congrArg Adder.preemptList hout

/-- Through the loop, if nothing is preempted. -/
theorem admitWaiting_oneCut (hpage : 0 < s.pageSize) (hl : s.treeCache.Lawful) (hcached : s.treeCache.disable = false)
    (halign : ∀ align ∈ s.truncationAlignSize, s.pageSize ∣ align) (hpreempt : lim.tryPreemption = false)
    (queue : List (Req ν α)) (hwaiting : ∀ r ∈ queue, 1 ≤ r.fillIds) {cont : Option (Req ν α)} {a : Adder ν τ α}
    (hcut : OneCut s cont a) (haccounts : Accounts s a) (hnone : a.preemptList = []) (full : Bool) :
    OneCut s cont (admitWaiting s lim queue full a).2 ∧ (admitWaiting s lim queue full a).2.preemptList = [] := by
  have hafter := admitWaiting_invariant lim (fun a => OneCut s cont a ∧ Accounts s a ∧ a.preemptList = []) queue
    (fun htry => by rw [hpreempt] at htry; cases htry)
    (fun a r hr h => by
      obtain ⟨hwhole, hsome⟩ := offered hl a.pool (hwaiting r hr)
      refine ⟨h.1.addOneReq hpage hl hcached halign hwhole hsome h.2.1 _,
        h.2.1.addOneReq hpage hl (.of_cached hcached) _, ?_⟩
      rw [addOneReq_preemptList hpage hl (.of_cached hcached) h.2.1.cur_le]
      exact h.2.2) full ⟨hcut, haccounts, hnone⟩
  exact ⟨hafter.1, hafter.2.2⟩

/-- A batch has been chosen for which there is no memory. -/
def Scheduler.OutOfMemory (s : Setup ν τ α) (lim : Limits) (sch : Scheduler ν τ α) : Prop :=
  ∃ batch sch', sch.pickBatch s lim = some (some batch, sch') ∧
    s.treeCache.allocForExtend (Scheduler.extendLens batch) sch'.pool = none

omit [IsStrictOrderedRing α] in
/-- Where the choice of a batch does not fail, only its memory can be wanting. -/
theorem outOfMemory_of_round (hpick : (sch.pickBatch s lim).isSome) (h : sch.getNewBatchPrefillRaw s lim = none) :
    sch.OutOfMemory s lim := by
  obtain ⟨⟨res, sch'⟩, hpick⟩ := Option.isSome_iff_exists.1 hpick
  have hmem := Option.bind_eq_none_iff.1 h _ hpick
  cases res with
  | none => cases hmem
  | some batch => exact ⟨batch, sch', hpick, Option.map_eq_none_iff.1 hmem⟩

/-- The choice of a batch never fails: no second request is cut, and nobody has to be queued again. -/
theorem pickBatch_isSome (hpage : 0 < s.pageSize) (hl : s.treeCache.Lawful) (hcached : s.treeCache.disable = false)
    (halign : ∀ align ∈ s.truncationAlignSize, s.pageSize ∣ align) (hratio : 0 ≤ s.newTokenRatio)
    (hpreempt : lim.tryPreemption = false) (hrunning : ∀ r ∈ sch.running, (r.outputIds : ℤ) ≤ r.maxNewTokens)
    (hwaiting : ∀ r ∈ sch.waitingQueue, 1 ≤ r.fillIds)
    (hchunked : ∀ r ∈ sch.chunkedReq, 0 ≤ r.maxNewTokens ∧ lim.chunkedPrefillSize.isSome) :
    (sch.pickBatch s lim).isSome := by
  obtain ⟨cont, a, hstart, hcut, haccounts, hnone⟩ := start_oneCut hpage hratio hrunning hchunked
  refine Option.isSome_iff_ne_none.2 fun hfails => ?_
  rcases pickBatch_fails hfails with hnone' | ⟨cont', a', full, hstart', full', a'', hloop, hout⟩
  · rw [hstart] at hnone'
    cases hnone'
  · rw [hstart] at hstart'
    cases hstart'
    obtain ⟨hcuts, hback⟩ := admitWaiting_oneCut hpage hl hcached halign hpreempt (calcPriority s lim sch.waitingQueue)
      (fun r hr => hwaiting r (mem_calcPriority.1 hr)) hcut haccounts hnone full
    rw [hloop] at hcuts hback
    have hback : a''.preemptList = [] := hback
    rcases hout with hqueue | ⟨hnew, hcont⟩
    · unfold Adder.requeued at hqueue
      rw [hback] at hqueue
      cases hqueue
    · rcases hcuts.one with hone | hone
      · rw [hone] at hcont
        cases hcont
      · have hone : a''.newChunkedReq = none := hone
        rw [hone] at hnew
        cases hnew

-- Preemption makes room after a request has been cut, and a second one is cut: the assertion fails.
example : (Scheduler.pickBatch pagedSetup (pagedLimits 1 true)
    { twentyPages [request 1 100 8 20] [decoding] (some (cutAt 200)) with pool := ⟨2, 3, 0⟩ }).isNone := by
  decide +kernel

end Fits

/-! ## No request is lost -/

section Keeps

variable {ν τ α : Type*} [Field α] [LinearOrder α] {s : Setup ν τ α} {lim : Limits} {a : Adder ν τ α}

omit [Field α] [LinearOrder α] in
theorem requeued_rids : (a.requeued s).map (·.1.rid) = a.preemptList.map (·.rid) := by
  unfold Adder.requeued
  rw [List.map_map]
  conv_rhs => rw [← List.zipIdx_map_fst 0 a.preemptList, List.map_map]
  rfl

/-- Removing the members of a sublist leaves the rest. -/
theorem perm_append_filter {q l : List ℕ} (hq : q.Nodup) (hsub : l.Sublist q) : (l ++ q.filter (· ∉ l)).Perm q := by
  have hin : (q.filter (· ∈ l)).Perm l := by
    apply (List.perm_ext_iff_of_nodup (hq.filter _) (hsub.nodup hq)).2
    intro x
    rw [List.mem_filter, decide_eq_true_iff]
    exact ⟨fun h => h.2, fun h => ⟨hsub.subset h, h⟩⟩
  have hsplit := List.filter_append_perm (· ∈ l) q
  simp only [← decide_not] at hsplit
  exact (hin.symm.append_right _).trans hsplit

theorem preemptible_prefix (more : Req ν α → Bool) (rs : List (Req ν α)) (tokens : α) :
    (Adder.preemptible s more rs tokens).1 <+: rs := by
  induction rs generalizing tokens with
  | nil => exact List.prefix_rfl
  | cons r rs ih =>
    unfold Adder.preemptible
    split
    · exact List.nil_prefix
    · dsimp only
      split
      · exact (List.prefix_append [r] rs)
      · exact List.cons_prefix_cons.2 ⟨rfl, ih _⟩

omit [LinearOrder α] in
/-- Those who are given up wait again. -/
theorem release_perm (hnodup : (a.running.map (·.rid)).Nodup) {taken : List (Req ν α)} (hdistinct : taken.Nodup)
    (hsub : taken ⊆ a.running) :
    (((a.release s taken).running ++ (a.release s taken).preemptList).map (·.rid)).Perm
      ((a.running ++ a.preemptList).map (·.rid)) := by
  have hout : (a.running.filter fun r => taken.any fun x => x.rid = r.rid).Perm taken := by
    apply (List.perm_ext_iff_of_nodup (hnodup.of_map.filter _) hdistinct).2
    intro r
    rw [List.mem_filter, List.any_eq_true]
    constructor
    · rintro ⟨hr, x, hx, heq⟩
      have hsame : x = r := List.inj_on_of_nodup_map hnodup (hsub hx) hr (of_decide_eq_true heq)
      exact hsame ▸ hx
    · exact fun hr => ⟨hsub hr, r, hr, decide_eq_true rfl⟩
  have hsplit := List.filter_append_perm (fun r : Req ν α => taken.any fun x => decide (x.rid = r.rid)) a.running
  have hrids : (taken.map Req.resetForRetract).map (·.rid) = taken.map (·.rid) := by
    rw [List.map_map]
    rfl
  have hmoved : ((a.running.filter fun r => ¬ taken.any fun x => decide (x.rid = r.rid)) ++
      (a.preemptList ++ taken)).Perm (a.running ++ a.preemptList) := by
    simp only [decide_not, Bool.decide_eq_true]
    refine List.perm_append_comm.trans ?_
    rw [List.append_assoc]
    exact List.perm_append_comm.trans (((hout.symm.append_right _).append_right _).trans (hsplit.append_right _))
  have hmap := hmoved.map (·.rid)
  show (((a.running.filter fun r => ¬ taken.any fun x => decide (x.rid = r.rid)) ++
    (a.preemptList ++ taken.map Req.resetForRetract)).map (·.rid)).Perm _
  simp only [List.map_append, hrids] at hmap ⊢
  exact hmap

/-- Whom preemption gives up was running. -/
theorem victims_sound (hnodup : (a.running.map (·.rid)).Nodup) {taken : List (Req ν α)} {tokens : α}
    {more : Req ν α → Bool} (h : taken = (Adder.preemptible s more (a.victims s) tokens).1) :
    taken.Nodup ∧ taken ⊆ a.running := by
  have hinitial : taken <+: a.victims s := h ▸ preemptible_prefix more _ tokens
  have hnodup' : (a.victims s).Nodup := Argsort.stable.nodup_asc (hnodup.of_map.filter _)
  refine ⟨hinitial.sublist.nodup hnodup', fun r hr => ?_⟩
  exact List.mem_of_mem_filter (Argsort.stable.mem_asc.1 (hinitial.subset hr))

/-- The requests `l` are taken, and running ones moved to those that wait. -/
structure Moves (a b : Adder ν τ α) (l : List ℕ) : Prop where
  taken : b.canRunList.map (·.rid) = a.canRunList.map (·.rid) ++ l
  perm : ((b.running ++ b.preemptList).map (·.rid)).Perm ((a.running ++ a.preemptList).map (·.rid))
  running : b.running.Sublist a.running

omit [Field α] [LinearOrder α] in
theorem Moves.refl (a : Adder ν τ α) : Moves a a [] := ⟨(List.append_nil _).symm, List.Perm.refl _, List.Sublist.refl _⟩

omit [Field α] [LinearOrder α] in
theorem Moves.trans {b c : Adder ν τ α} {l l' : List ℕ} (h : Moves a b l) (h' : Moves b c l') :
    Moves a c (l ++ l') where
  taken := by rw [h'.taken, h.taken, List.append_assoc]
  perm := h'.perm.trans h.perm
  running := h'.running.trans h.running

variable (s lim) in
theorem makeRoom_moves (hnodup : (a.running.map (·.rid)).Nodup) (full : Bool) (req : Req ν α) :
    Moves a (makeRoom s lim full a req).2 [] := by
  unfold makeRoom
  split
  · exact Moves.refl a
  · split
    · exact Moves.refl a
    · rcases preemptToSchedule_cases s a req with heq | ⟨taken, tokens, more, heq, htaken⟩ <;> rw [heq]
      · exact Moves.refl a
      · obtain ⟨hdistinct, hsub⟩ := victims_sound hnodup htaken
        exact ⟨(List.append_nil _).symm, release_perm hnodup hdistinct hsub, List.filter_sublist⟩

variable [FloorRing α] [IsStrictOrderedRing α]

variable (lim) in
omit [FloorRing α] in
theorem makeRoom_accounts (h : Accounts s a) (full : Bool) (req : Req ν α) :
    Accounts s (makeRoom s lim full a req).2 := by
  unfold makeRoom
  split
  · exact h
  · split
    · exact h
    · exact h.preemptToSchedule

theorem addOneReq_moves (hpage : 0 < s.pageSize) (hl : s.treeCache.Lawful) (ha : Accounts s a) {req : Req ν α}
    (hnew : s.Asks req) (allow : Bool) :
    ∃ l, l.Sublist [req.rid] ∧ Moves a (a.addOneReq s req allow).2 l := by
  rcases addOneReq_cases hpage hl hnew ha.cur_le allow with ⟨states, heq⟩ | ⟨len, maxNew, ht⟩
  · rw [heq]
    exact ⟨[], List.nil_sublist _, (List.append_nil _).symm, List.Perm.refl _, List.Sublist.refl _⟩
  · refine ⟨[req.rid], List.Sublist.refl _, ?_, ?_, ?_⟩
    · rw [ht.canRunList, List.map_append]
      rfl
    · rw [ht.running, ht.preemptList]
    · rw [ht.running]

variable (lim) in
/-- The loop takes requests in the order of the queue, each at most once, and moves running ones. -/
theorem admitWaiting_moves (hpage : 0 < s.pageSize) (hl : s.treeCache.Lawful) (queue : List (Req ν α))
    (hwaiting : ∀ r ∈ queue, s.Asks r) (full : Bool) (ha : Accounts s a)
    (hnodup : (a.running.map (·.rid)).Nodup) :
    ∃ l, l.Sublist (queue.map (·.rid)) ∧ Moves a (admitWaiting s lim queue full a).2 l := by
  induction queue generalizing full a with
  | nil => exact ⟨[], List.nil_sublist _, Moves.refl a⟩
  | cons r rest ih =>
    unfold admitWaiting
    dsimp only
    generalize (full || decide (lim.ppMaxMicroBatchSize - a.running.length ≤ a.canRunList.length)) = full'
    have hroom := makeRoom_moves s lim hnodup full' r
    have haroom := makeRoom_accounts lim ha full' r
    generalize makeRoom s lim full' a r = made at hroom haroom
    split
    · exact ⟨[], List.nil_sublist _, hroom⟩
    · have hnew := (hwaiting r List.mem_cons_self).initNextRoundInput made.2.pool
      obtain ⟨l, hone, hadd⟩ := addOneReq_moves hpage hl haroom hnew (lim.allow r.rid)
      have haadd := haroom.addOneReq hpage hl hnew (lim.allow r.rid)
      have hboth := hroom.trans hadd
      have hhead : l.Sublist ((r :: rest).map (·.rid)) := hone.trans (List.cons_sublist_cons.2 (List.nil_sublist _))
      split
      · obtain ⟨l', hrest, hnext⟩ := ih (fun r hr => hwaiting r (List.mem_cons_of_mem _ hr)) full' haadd
          ((hboth.running.map _).nodup hnodup)
        exact ⟨l ++ l', hone.append hrest, hboth.trans hnext⟩
      · split <;> exact ⟨l, hhead, hboth⟩

/-- What a round begins with. -/
theorem start_moves {sch : Scheduler ν τ α} (hrunning : ∀ r ∈ sch.running, 0 ≤ s.runningOffset r)
    (hchunked : ∀ r ∈ sch.chunkedReq, 0 ≤ r.maxNewTokens) {cont : Option (Req ν α)}
    (h : sch.start s lim = some (cont, a)) : Accounts s a ∧
      a.canRunList.map (·.rid) = sch.chunkedReq.toList.map (·.rid) ∧ a.running = sch.running ∧ a.preemptList = [] := by
  have hadder : Accounts s (sch.adder s lim) := accounts_adder sch.pool hrunning _ _
  unfold Scheduler.start at h
  cases hr : sch.chunkedReq with
  | none =>
    rw [hr] at h
    cases h
    exact ⟨hadder, rfl, rfl, rfl⟩
  | some r =>
    rw [hr] at h
    have hnew : 0 ≤ r.initNextRoundInput.maxNewTokens := hchunked r hr
    have haccounts := hadder.addChunkedReq hnew h
    obtain ⟨chunk, -, rem, -, -, rfl⟩ := addChunkedReq_eq h
    exact ⟨haccounts, rfl, rfl, rfl⟩

omit [Field α] [LinearOrder α] [FloorRing α] [IsStrictOrderedRing α] in
/-- The requests of a queue that were not taken. -/
theorem map_untaken {queue taken : List (Req ν α)} {before l : List ℕ} (htaken : taken.map (·.rid) = before ++ l)
    (hapart : ∀ r ∈ queue, r.rid ∉ before) :
    (queue.filter fun r => ¬ taken.any fun x => x.rid = r.rid).map (·.rid) =
      (queue.map (·.rid)).filter (· ∉ l) := by
  rw [List.filter_map]
  apply congrArg
  apply List.filter_congr
  intro r hr
  have hany : (taken.any fun x => decide (x.rid = r.rid)) = true ↔ r.rid ∈ l := by
    have hmem : r.rid ∈ taken.map (·.rid) ↔ r.rid ∈ l := by
      rw [htaken, List.mem_append]
      exact or_iff_right (hapart r hr)
    rw [← hmem, List.any_eq_true, List.mem_map]
    simp only [decide_eq_true_eq]
  simp only [Function.comp_apply, decide_eq_decide]
  exact not_congr hany

omit [Field α] [LinearOrder α] [FloorRing α] [IsStrictOrderedRing α] in
/-- A batch, with what is left of the queue and what has moved back to it. -/
theorem batch_perm {queue taken back running running' : List (Req ν α)} {before l : List ℕ}
    (htaken : taken.map (·.rid) = before ++ l) (hsub : l.Sublist (queue.map (·.rid)))
    (hnodup : (before ++ queue.map (·.rid)).Nodup)
    (hperm : ((running' ++ back).map (·.rid)).Perm (running.map (·.rid))) :
    (taken.map (·.rid) ++ (((queue.filter fun r => ¬ taken.any fun x => x.rid = r.rid) ++ back) ++ running').map
      (·.rid)).Perm (before ++ (queue.map (·.rid) ++ running.map (·.rid))) := by
  have hapart : ∀ r ∈ queue, r.rid ∉ before := fun r hr hmem =>
    List.disjoint_of_nodup_append hnodup hmem (List.mem_map_of_mem hr)
  have hqueue : (l ++ (queue.map (·.rid)).filter (· ∉ l)).Perm (queue.map (·.rid)) :=
    perm_append_filter hnodup.of_append_right hsub
  have hrest : (back.map (·.rid) ++ running'.map (·.rid)).Perm (running.map (·.rid)) := by
    rw [← List.map_append]
    exact (List.perm_append_comm.map _).trans hperm
  rw [List.map_append, List.map_append, map_untaken htaken hapart, htaken, List.append_assoc]
  apply List.Perm.append_left
  have hboth := hqueue.append hrest
  simpa only [List.append_assoc] using hboth

omit [Field α] [LinearOrder α] [FloorRing α] [IsStrictOrderedRing α] in
/-- Where nothing is taken, the requests given up are missing. -/
theorem missing_perm {queue queue' running running' aborted : List ℕ} (hqueue : queue'.Perm queue)
    (hsub : running'.Sublist running) (hnodup : running.Nodup) :
    ((queue' ++ running' ++ aborted) ++ running.filter (· ∉ running')).Perm (queue ++ running ++ aborted) := by
  have hrunning : (running' ++ running.filter (· ∉ running')).Perm running := perm_append_filter hnodup hsub
  have hback : ((queue' ++ running' ++ aborted) ++ running.filter (· ∉ running')).Perm
      (queue' ++ (running' ++ running.filter (· ∉ running')) ++ aborted) := by
    simp only [List.append_assoc]
    exact (List.perm_append_comm.append_left _).append_left _
  exact hback.trans ((hqueue.append hrunning).append_right _)

omit [Field α] [FloorRing α] [IsStrictOrderedRing α] in
/-- Where a batch is taken, it is with what waits, runs or was aborted all there was. -/
theorem taken_perm {sch sch₁ : Scheduler ν τ α} {queue : List (Req ν α)} {full : Bool} {cont : Option (Req ν α)}
    {before l : List ℕ}
    (hadd : (sch.without queue full cont a).addRequestsToQueue s lim (a.requeued s) = some sch₁)
    (htaken : a.canRunList.map (·.rid) = before ++ l) (hsub : l.Sublist (queue.map (·.rid)))
    (hnodup : (before ++ (queue.map (·.rid) ++ sch.running.map (·.rid))).Nodup)
    (hperm : ((a.running ++ a.preemptList).map (·.rid)).Perm (sch.running.map (·.rid))) :
    (a.canRunList.map (·.rid) ++ sch₁.rids).Perm
      (before ++ (queue.map (·.rid) ++ sch.running.map (·.rid) ++ sch.aborted.map (·.rid))) := by
  have hframe : sch₁.running = a.running := congrArg Scheduler.running (addRequestsToQueue_eq hadd)
  have hwaits : (before ++ queue.map (·.rid)).Nodup := by
    rw [← List.append_assoc] at hnodup
    exact hnodup.of_append_left
  have hbatch := batch_perm htaken hsub hwaits hperm
  -- nobody who is queued again is in the queue
  have hback : ((a.requeued s).map (·.1.rid) ++ (sch.without queue full cont a).waitingQueue.map (·.rid)).Nodup := by
    have hall := (hbatch.nodup_iff.2 hnodup).of_append_right
    rw [requeued_rids]
    rw [List.map_append] at hall
    have hboth := hall.of_append_left
    rw [List.map_append] at hboth
    exact (List.perm_append_comm.nodup_iff).1 hboth
  obtain ⟨out, hqueued⟩ := addRequestsToQueue_queued hadd hback
  have hafter := hqueued.rids_perm hframe
  rw [requeued_rids] at hafter
  refine (hafter.append_left _).trans ?_
  have hwhole := hbatch.append_right (sch.aborted.map (·.rid))
  refine List.Perm.trans ?_ (by simpa only [List.append_assoc] using hwhole)
  simp only [Scheduler.rids, List.map_append, List.append_assoc]
  exact (List.perm_append_comm_assoc _ _ _).append_left _

end Keeps

/-! ## An idle server -/

section Idle

variable {ν τ α : Type*} [Field α] [LinearOrder α] [IsStrictOrderedRing α] [FloorRing α] {s : Setup ν τ α}
  {lim : Limits} {a : Adder ν τ α} {req : Req ν α}

/-- What `add_one_req` counts for a request that it does not have to squeeze in. -/
def Setup.need (s : Setup ν τ α) (r : Req ν α) : ℤ :=
  r.extendInputLen + min (max (r.maxNewTokens - r.outputIds) 0) s.clipMaxNewTokens + s.pageSize

/-- An idle server has room for a request. The reservation is lowered for a request that does not fit into the room
there is before the lock, and then the lock must not take any. -/
def Setup.Seats (s : Setup ν τ α) (pool : τ) (r : Req ν α) : Prop :=
  s.need r < s.treeCache.room (s.treeCache.incLockRef r.lastNode pool) ∨
    s.treeCache.room pool ≤ s.need r ∧ r.extendInputLen + s.pageSize < s.treeCache.room pool ∧
      s.treeCache.room (s.treeCache.incLockRef r.lastNode pool) = s.treeCache.room pool

/-- The chunk takes the request, or a part of it. -/
def Setup.Chunks (s : Setup ν τ α) (chunk : Option ℤ) (r : Req ν α) : Prop :=
  ∀ c ∈ chunk, s.ceilPagedTokens r.extendInputLen ≤ c ∨ (Adder.truncLen s r c).isSome

/-- An idle server takes a request, if the delayer lets it through. -/
def Setup.Admits (s : Setup ν τ α) (lim : Limits) (pool : τ) (r : Req ν α) : Prop :=
  s.Seats pool (s.initNextRoundInput pool r) ∧ s.Chunks lim.chunkedPrefillSize (s.initNextRoundInput pool r) ∧
    s.prefillMaxRequests ≠ some 0

/-- An adder that has taken nothing while nothing runs. -/
structure Empty (a : Adder ν τ α) : Prop where
  canRunList : a.canRunList = []
  running : a.running = []
  total : a.remTotalTokenOffset = 0

omit [LinearOrder α] [IsStrictOrderedRing α] [FloorRing α] in
theorem Empty.remTotalTokens (h : Empty a) : a.remTotalTokens s = ((s.treeCache.room a.pool : ℤ) : α) := by
  unfold Adder.remTotalTokens
  rw [h.total, sub_zero, Int.cast_natCast]

omit [LinearOrder α] [IsStrictOrderedRing α] [FloorRing α] in
theorem Empty.lock (h : Empty a) (n : ν) : Empty (a.lock s n) := ⟨h.canRunList, h.running, h.total⟩

omit [IsStrictOrderedRing α] [FloorRing α] in
theorem addLocked_error {allow : Bool} {maxNew total : ℤ} {res : AddReqResult}
    (h : a.addLocked s req allow maxNew total = .error res) : res ≠ .continue := by
  rintro rfl
  unfold Adder.addLocked at h
  dsimp only at h
  repeat' split at h
  any_goals cases h
  cases htrunc : Adder.truncLen s req (a.remChunkTokens.getD 0) <;> rw [htrunc] at h <;> cases h

omit [IsStrictOrderedRing α] [FloorRing α] in
theorem addLocked_ok {allow : Bool} {maxNew total : ℤ} {b : Adder ν τ α}
    (h : a.addLocked s req allow maxNew total = .ok b) : b.canRunList ≠ [] := by
  unfold Adder.addLocked at h
  dsimp only at h
  repeat' split at h
  any_goals cases h
  · exact List.append_ne_nil_of_right_ne_nil _ (List.cons_ne_nil _ _)
  · cases htrunc : Adder.truncLen s req (a.remChunkTokens.getD 0) <;> rw [htrunc] at h <;> cases h
    exact List.append_ne_nil_of_right_ne_nil _ (List.cons_ne_nil _ _)

/-- Inside of the lock. -/
theorem Empty.addLocked_isOk (h : Empty a) {allow : Bool} {maxNew total : ℤ} :
    (∃ b, a.addLocked s req allow maxNew total = .ok b) ↔
      total < s.treeCache.room a.pool ∧ s.Chunks a.remChunkTokens req ∧ allow = true := by
  unfold Adder.addLocked Setup.Chunks
  rw [h.remTotalTokens]
  simp only [Int.cast_le, h.canRunList, ne_eq, not_true_eq_false, and_false, if_false]
  split
  · next hle => exact iff_of_false (fun ⟨b, hb⟩ => nomatch hb) fun hok => absurd hok.1 (not_lt.2 hle)
  · next hlt =>
    split
    · next hallow => exact iff_of_false (fun ⟨b, hb⟩ => nomatch hb) fun hok => hallow hok.2.2
    · next hallow =>
      have hrest : total < s.treeCache.room a.pool ∧ allow = true := ⟨not_le.1 hlt, not_not.1 hallow⟩
      split
      · next hall =>
        refine iff_of_true ⟨_, rfl⟩ ⟨hrest.1, fun c hc => .inl ?_, hrest.2⟩
        rw [Option.mem_def.1 hc] at hall
        simpa using hall
      · next hlong =>
        obtain ⟨chunk, hchunk, hlt⟩ := exists_lt_of_not_all hlong
        have hgetD : a.remChunkTokens.getD 0 = chunk := congrArg (·.getD 0) hchunk
        rw [hgetD, hchunk]
        cases htrunc : Adder.truncLen s req chunk with
        | none =>
          refine iff_of_false (fun ⟨b, hb⟩ => nomatch hb) fun hok => ?_
          rcases hok.2.1 chunk rfl with hle | hsome
          · exact absurd hle (not_le.2 hlt)
          · rw [htrunc] at hsome
            cases hsome
        | some len =>
          refine iff_of_true ⟨_, rfl⟩ ⟨hrest.1, fun c hc => .inr ?_, hrest.2⟩
          obtain rfl := Option.some.inj hc
          rw [htrunc]
          rfl

theorem int_intCast (n : ℤ) : int ((n : ℤ) : α) = n := by
  unfold int
  split
  · exact Int.floor_intCast n
  · exact Int.ceil_intCast n

/-- What is reserved fits exactly if the server seats the request. -/
theorem Empty.total_lt_iff (h : Empty a) (hl : s.treeCache.Lawful) :
    req.extendInputLen + a.maxNew s req + s.pageSize <
      s.treeCache.room (s.treeCache.incLockRef req.lastNode a.pool) ↔ s.Seats a.pool req := by
  have hlock := hl.room_incLockRef req.lastNode a.pool
  unfold Setup.Seats Setup.need Adder.maxNew
  rw [h.remTotalTokens, int_intCast]
  simp only [Int.cast_le, h.canRunList, h.running, and_self, and_true]
  split <;> omega

/-- **The first request.** It is taken exactly if it has a seat and a part of it fits into the chunk; else nothing
happens. -/
theorem Empty.addOneReq (h : Empty a) (hl : s.treeCache.Lawful) (hcached : s.treeCache.disable = false) (allow : Bool) :
    (s.Seats a.pool req ∧ s.Chunks a.remChunkTokens req ∧ allow = true ∧ s.prefillMaxRequests ≠ some 0 ∧
        (a.addOneReq s req allow).2.canRunList ≠ []) ∨
      ¬ (s.Seats a.pool req ∧ s.Chunks a.remChunkTokens req ∧ allow = true ∧ s.prefillMaxRequests ≠ some 0) ∧
        (a.addOneReq s req allow).2 = a ∧ (a.addOneReq s req allow).1 ≠ .continue := by
  have hlock := hl.room_incLockRef req.lastNode a.pool
  have hunlock : (a.lock s req.lastNode).unlock s req.lastNode = a := by
    unfold Adder.lock Adder.unlock
    rw [hl.decLockRef_incLockRef]
  have hlen : a.canRunList.length = 0 := by rw [h.canRunList, List.length_nil]
  have hmaxed : s.prefillMaxRequests.any (· ≤ a.canRunList.length) = true ↔ s.prefillMaxRequests = some 0 := by
    rw [hlen]
    cases s.prefillMaxRequests <;> simp
  unfold Adder.addOneReq
  rw [if_neg (show ¬ (s.cpInSeqSplit = true ∧ 1 ≤ a.canRunList.length) by omega)]
  by_cases hmax : s.prefillMaxRequests = some 0
  · rw [if_pos (hmaxed.2 hmax)]
    exact .inr ⟨fun hok => hok.2.2.2 hmax, rfl, fun hres => nomatch hres⟩
  · rw [if_neg (fun hany => hmax (hmaxed.1 hany)), if_neg (by simp [hcached])]
    dsimp only
    split
    · next hfull =>
      rw [h.remTotalTokens, Int.cast_le] at hfull
      refine .inr ⟨fun hok => ?_, rfl, fun hres => nomatch hres⟩
      have hlt := (h.total_lt_iff hl).2 hok.1
      omega
    · rw [if_neg (fun hempty => hempty.2 h.canRunList)]
      have hempty : Empty (a.lock s req.lastNode) := h.lock req.lastNode
      have hlocked : (∃ b, (a.lock s req.lastNode).addLocked s req allow (a.maxNew s req)
          (req.extendInputLen + a.maxNew s req + s.pageSize) = .ok b) ↔ _ := hempty.addLocked_isOk
      cases hres : (a.lock s req.lastNode).addLocked s req allow (a.maxNew s req)
        (req.extendInputLen + a.maxNew s req + s.pageSize) with
      | error res =>
        refine .inr ⟨fun hok => ?_, hunlock, addLocked_error hres⟩
        obtain ⟨b, hb⟩ := hlocked.2 ⟨(h.total_lt_iff hl).2 hok.1, hok.2.1, hok.2.2.1⟩
        rw [hres] at hb
        cases hb
      | ok b =>
        obtain ⟨hlt, hchunks, hallow⟩ := hlocked.1 ⟨b, hres⟩
        have hsome : b.canRunList ≠ [] := addLocked_ok hres
        exact .inl ⟨(h.total_lt_iff hl).1 hlt, hchunks, hallow, hmax, hsome⟩

/-- Nothing runs and nothing is under way. -/
structure Scheduler.Idle (sch : Scheduler ν τ α) : Prop where
  running : sch.running = []
  batchIsFull : sch.batchIsFull = false
  chunkedReq : sch.chunkedReq = none

omit [LinearOrder α] [IsStrictOrderedRing α] [FloorRing α] in
theorem Scheduler.Idle.adder {sch : Scheduler ν τ α} (h : sch.Idle) : Empty (sch.adder s lim) := by
  refine ⟨rfl, h.running, ?_⟩
  show ((if lim.isMixedChunk then sch.running.length else 0 : ℕ) : α) + (sch.running.map s.runningOffset).sum = 0
  simp [h.running]

omit [IsStrictOrderedRing α] in
/-- While there is a seat in the micro batch, the head of the queue is offered. -/
theorem admitWaiting_open {r : Req ν α} {rest : List (Req ν α)}
    (h : a.canRunList.length < lim.ppMaxMicroBatchSize - a.running.length) :
    admitWaiting s lim (r :: rest) false a =
      (let (res, a) := a.addOneReq s (s.initNextRoundInput a.pool r) (lim.allow r.rid)
      if res = .continue then admitWaiting s lim rest false a
      else if res = .noToken then (decide (a.canRunList ≠ [] ∨ a.running ≠ []), a)
      else (false, a)) := by
  have hcount : decide (lim.ppMaxMicroBatchSize - a.running.length ≤ a.canRunList.length) = false :=
    decide_eq_false (not_le.2 h)
  conv_lhs => unfold admitWaiting
  rw [hcount]
  rfl

/-- The queue of an idle server: its head decides. -/
theorem Empty.admitWaiting (hpage : 0 < s.pageSize) (hl : s.treeCache.Lawful) (hcached : s.treeCache.disable = false)
    (hbatch : 0 < lim.ppMaxMicroBatchSize) (h : Empty a) (ha : Accounts s a)
    (hchunk : a.remChunkTokens = lim.chunkedPrefillSize) (r : Req ν α) (rest : List (Req ν α)) :
    ((s.Admits lim a.pool r ∧ lim.allow r.rid = true) ∧
        (Prefill.admitWaiting s lim (r :: rest) false a).2.canRunList ≠ []) ∨
      (¬ (s.Admits lim a.pool r ∧ lim.allow r.rid = true) ∧
        Prefill.admitWaiting s lim (r :: rest) false a = (false, a)) := by
  have hseat : a.canRunList.length < lim.ppMaxMicroBatchSize - a.running.length := by
    rw [h.canRunList, h.running]
    simpa using hbatch
  have hopen : Prefill.admitWaiting s lim (r :: rest) false a = _ := admitWaiting_open hseat
  have hfirst : _ ∨ ¬ _ ∧ (a.addOneReq s (s.initNextRoundInput a.pool r) (lim.allow r.rid)).2 = a ∧ _ :=
    h.addOneReq hl hcached (lim.allow r.rid)
  rw [hchunk] at hfirst
  rcases hfirst with ⟨hseats, hchunks, hallow, hmax, hsome⟩ | ⟨hnot, hsame, hstop⟩
  · refine .inl ⟨⟨⟨hseats, hchunks, hmax⟩, hallow⟩, ?_⟩
    rw [hopen]
    dsimp only
    split
    · -- what has been taken stays, whatever else is offered
      obtain ⟨l, -, hmoves⟩ := addOneReq_moves hpage hl ha (.of_cached hcached) (lim.allow r.rid)
      have hrunning : ((a.addOneReq s (s.initNextRoundInput a.pool r) (lim.allow r.rid)).2.running.map
          (·.rid)).Nodup := by
        have hnone := hmoves.running
        rw [h.running] at hnone
        rw [List.eq_nil_of_sublist_nil hnone]
        exact List.nodup_nil
      obtain ⟨l', -, hrest⟩ := admitWaiting_moves lim hpage hl rest (fun _ _ => .of_cached hcached) false
        (ha.addOneReq hpage hl (.of_cached hcached) (lim.allow r.rid)) hrunning
      intro hnone
      have htaken := hrest.taken
      rw [hnone] at htaken
      exact hsome (List.map_eq_nil_iff.1 (List.append_eq_nil_iff.1 htaken.symm).1)
    · split <;> exact hsome
  · refine .inr ⟨fun hok => hnot ⟨hok.1.1, hok.1.2.1, hok.2, hok.1.2.2⟩, ?_⟩
    rw [hopen]
    dsimp only
    rw [if_neg hstop, hsame, h.canRunList, h.running]
    simp

/-- What is taken of a request that is not empty is not empty. -/
theorem addOneReq_nonneg (hpage : 0 < s.pageSize) (hl : s.treeCache.Lawful) (hcached : s.treeCache.disable = false)
    (ha : Accounts s a) (hreq : 0 ≤ req.extendInputLen) (h : ∀ r ∈ a.canRunList, 0 ≤ r.extendInputLen) (allow : Bool) :
    ∀ r ∈ (a.addOneReq s req allow).2.canRunList, 0 ≤ r.extendInputLen := by
  rcases addOneReq_cases hpage hl (.of_cached hcached) ha.cur_le allow with ⟨states, heq⟩ | ⟨len, maxNew, ht⟩
  · rw [heq]
    exact h
  · have hlen : 0 ≤ len := by
      rcases ht.whole with ⟨rfl, -⟩ | ⟨-, -, hcut⟩
      · exact hreq
      · obtain ⟨chunk, -, htrunc⟩ := hcut hcached
        exact (truncLen_eq_some htrunc).2.1.le
    rw [ht.canRunList]
    intro r hr
    rcases List.mem_append.1 hr with hr | hr
    · exact h r hr
    · rw [List.mem_singleton.1 hr]
      exact hlen

/-- A batch of an idle server fits, and nobody has been preempted for it. -/
theorem Scheduler.Idle.fits (hpage : 0 < s.pageSize) (hl : s.treeCache.Lawful) (hcached : s.treeCache.disable = false)
    (hpreempt : lim.tryPreemption = false) {sch : Scheduler ν τ α} (hidle : sch.Idle) (queue : List (Req ν α))
    {full full' : Bool} {a : Adder ν τ α}
    (hloop : Prefill.admitWaiting s lim queue full (sch.adder s lim) = (full', a)) :
    (a.canRunList.map fun r => s.ceilPagedTokens r.extendInputLen).sum ≤ s.treeCache.room a.pool ∧
      (∀ r ∈ a.canRunList, 0 ≤ r.extendInputLen) ∧ a.preemptList = [] := by
  have hstart : Reserves s (if lim.isMixedChunk then sch.running.length else 0) (sch.adder s lim) :=
    reserves_adder sch.pool (fun r hr => absurd (hidle.running ▸ hr) List.not_mem_nil) _ _
  have hafter := admitWaiting_invariant lim
    (fun a => Reserves s (if lim.isMixedChunk then sch.running.length else 0) a ∧
      (∀ r ∈ a.canRunList, 0 ≤ r.extendInputLen) ∧ a.preemptList = []) queue
    (fun htry => by rw [hpreempt] at htry; cases htry)
    (fun a r _ h => by
      refine ⟨h.1.addOneReq hpage hl (.of_cached hcached) _,
        addOneReq_nonneg hpage hl hcached h.1.toAccounts (offered_nonneg hl a.pool r) h.2.1 _, ?_⟩
      rw [addOneReq_preemptList hpage hl (.of_cached hcached) h.1.cur_le]
      exact h.2.2) full ⟨hstart, fun r hr => absurd hr List.not_mem_nil, rfl⟩
  rw [hloop] at hafter
  exact ⟨hafter.1.fits, hafter.2⟩

omit [IsStrictOrderedRing α] in
/-- The batch of an idle server. -/
theorem Scheduler.Idle.pickBatch (hpreempt : lim.tryPreemption = false) (hbatch : 0 < lim.ppMaxMicroBatchSize)
    {sch : Scheduler ν τ α} (hidle : sch.Idle) {r : Req ν α} {rest : List (Req ν α)}
    (hqueue : sch.waitingQueue = r :: rest) {full : Bool} {a : Adder ν τ α}
    (hloop : admitWaiting s lim (r :: rest) false (sch.adder s lim) = (full, a)) (hnone : a.preemptList = []) :
    sch.pickBatch s lim =
      if a.canRunList = [] then some (none, ⟨r :: rest, a.running, full, none, a.pool, sch.aborted⟩)
      else some (some a.canRunList,
        { sch.without (r :: rest) full none a with chunkedReq := a.newChunkedReq.orElse fun _ => none }) := by
  have hnot : ¬ lim.ppMaxMicroBatchSize - (sch.running.length : ℤ) ≤ 0 := by
    rw [hidle.running, List.length_nil, Nat.cast_zero, sub_zero]
    exact not_le.2 hbatch
  unfold Scheduler.pickBatch Scheduler.start calcPriority
  rw [hidle.chunkedReq, hidle.batchIsFull, hqueue, hpreempt]
  simp [hnot, hloop, Adder.requeued, hnone, Scheduler.addRequestsToQueue]

/-- A round of an idle server with `r` at the head of its queue. -/
theorem Scheduler.Idle.serves (hpage : 0 < s.pageSize) (hl : s.treeCache.Lawful) (halloc : s.Allocates)
    (hcached : s.treeCache.disable = false) (hpreempt : lim.tryPreemption = false)
    (hbatch : 0 < lim.ppMaxMicroBatchSize) {sch : Scheduler ν τ α} (hidle : sch.Idle) {r : Req ν α}
    {rest : List (Req ν α)} (hqueue : sch.waitingQueue = r :: rest) :
    ((s.Admits lim sch.pool r ∧ lim.allow r.rid = true) ∧
        ∃ batch sch', sch.getNewBatchPrefillRaw s lim = some (some batch, sch')) ∨
      (¬ (s.Admits lim sch.pool r ∧ lim.allow r.rid = true) ∧
        sch.getNewBatchPrefillRaw s lim = some (none, sch)) := by
  have hempty : Empty (sch.adder s lim) := hidle.adder
  have haccounts : Accounts s (sch.adder s lim) :=
    accounts_adder sch.pool (fun r hr => absurd (hidle.running ▸ hr) List.not_mem_nil) _ _
  have hchunk : (sch.adder s lim).remChunkTokens = lim.chunkedPrefillSize := by
    show lim.chunkedPrefillSize.map (· - ((if lim.isMixedChunk then sch.running.length else 0 : ℕ) : ℤ)) = _
    simp [hidle.running]
  have hhead := hempty.admitWaiting hpage hl hcached hbatch haccounts hchunk r rest
  obtain ⟨⟨full, a⟩, hloop⟩ : ∃ out, admitWaiting s lim (r :: rest) false (sch.adder s lim) = out := ⟨_, rfl⟩
  obtain ⟨hfits, hlen, hnone⟩ := hidle.fits hpage hl hcached hpreempt (r :: rest) hloop
  have hpick := hidle.pickBatch hpreempt hbatch hqueue hloop hnone
  rw [hloop] at hhead
  rcases hhead with ⟨hadmits, hsome⟩ | ⟨hnot, hout⟩
  · rw [if_neg hsome] at hpick
    obtain ⟨pool, hround⟩ := round_of_fits halloc hpick hfits hlen
    exact .inl ⟨hadmits, _, _, hround⟩
  · refine .inr ⟨hnot, ?_⟩
    obtain ⟨rfl, rfl⟩ := Prod.mk.inj hout
    rw [if_pos hempty.canRunList, ← hqueue, ← hidle.batchIsFull, ← hidle.chunkedReq] at hpick
    unfold Scheduler.getNewBatchPrefillRaw
    rw [hpick]
    rfl

omit [Field α] [IsStrictOrderedRing α] [FloorRing α] in
/-- Without preemption a request that comes in goes to the end of the queue, or is rejected. -/
theorem addRequestToQueue_of_not_preempt (s : Setup ν τ α) (hpreempt : lim.tryPreemption = false)
    (sch : Scheduler ν τ α) (req : Req ν α) (now : α) :
    ∃ last aborted, sch.addRequestToQueue s lim req now =
      some { sch with waitingQueue := sch.waitingQueue ++ last, aborted := aborted } := by
  unfold Scheduler.addRequestToQueue Scheduler.abortOnQueuedLimit
  split
  · exact ⟨_, _, rfl⟩
  · rw [if_pos (by simp [hpreempt])]
    exact ⟨[], sch.aborted ++ [req], by simp⟩

omit [Field α] [IsStrictOrderedRing α] [FloorRing α] in
theorem addRequestsToQueue_of_not_preempt (s : Setup ν τ α) (hpreempt : lim.tryPreemption = false)
    (reqs : List (Req ν α × α)) (sch : Scheduler ν τ α) :
    ∃ last aborted, Scheduler.addRequestsToQueue s lim reqs sch =
      some { sch with waitingQueue := sch.waitingQueue ++ last, aborted := aborted } := by
  induction reqs generalizing sch with
  | nil => exact ⟨[], sch.aborted, by simp [Scheduler.addRequestsToQueue]⟩
  | cons x reqs ih =>
    obtain ⟨last, aborted, hone⟩ := addRequestToQueue_of_not_preempt s hpreempt sch x.1 x.2
    obtain ⟨last', aborted', hrest⟩ := ih { sch with waitingQueue := sch.waitingQueue ++ last, aborted := aborted }
    refine ⟨last ++ last', aborted', ?_⟩
    unfold Scheduler.addRequestsToQueue
    rw [hone, Option.bind_some, hrest, List.append_assoc]

end Idle

end ExpertServe.Prefill
