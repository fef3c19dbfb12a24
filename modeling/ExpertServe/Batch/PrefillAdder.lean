import ExpertServe.Lib.Rank
import Mathlib.Algebra.Order.BigOperators.Group.List
import Mathlib.Algebra.Order.Floor.Ring
import Mathlib.Data.Prod.Lex
import Mathlib.Tactic.Linarith

/-!
# Admitting requests to a prefill

Each round the scheduler offers its waiting requests to a `PrefillAdder`, which reserves tokens of the KV pool for the
requests it takes. A request locks the part of the prefix cache it shares, so room is lost by locking as well.

* `Adder.addOneReq`, `Adder.addChunkedReq`, `Adder.preemptToSchedule`: what a round can do;
* `addOneReq_cases`: one waiting request;
* `Reserves`: what is taken fits, and is accounted for;
* `OneCut`: only one request is cut.
-/

namespace ExpertServe.Prefill

open Lib

/-- What the scheduler reads of a request. Of the token lists it reads the lengths. -/
structure Req (ν α : Type*) where
  rid : ℕ
  originInputIds : ℕ
  outputIds : ℕ
  maxNewTokens : ℤ
  ignoreEos : Bool
  /-- Where the log probabilities start that the client asked for. -/
  logprobStartLen : Option ℕ
  priority : ℤ
  waitQueueEntryTime : α
  finished : Bool
  prefixIndices : ℕ
  lastNode : ν
  extendInputLen : ℤ

/-- The KV pool with the prefix cache over it, as far as the scheduler sees it. -/
structure TreeCache (ν τ : Type*) where
  availableSize : τ → ℕ
  evictableSize : τ → ℕ
  /-- How many of the first tokens of a request are cached, and the node where they end. -/
  matchPrefix : ℕ → ℕ → τ → ℕ × ν
  incLockRef : ν → τ → τ
  decLockRef : ν → τ → τ
  /-- Free what a request holds, and evict for the requests that are left. -/
  releaseReq : ℕ → ℕ → τ → τ
  /-- `alloc_for_extend` of the KV memory, for the cached and the new tokens of each request; `none` is a raise, for
  there is not enough. -/
  allocForExtend : List (ℕ × ℤ) → τ → Option τ
  disable : Bool

namespace TreeCache

variable {ν τ : Type*} (tc : TreeCache ν τ)

/-- `available_and_evictable`. -/
def room (t : τ) : ℕ := tc.availableSize t + tc.evictableSize t

/-- What the scheduler relies on: a lock only takes room, the release of a lock undoes it, and the release of a request
only gives room. -/
structure Lawful : Prop where
  decLockRef_incLockRef : ∀ n t, tc.decLockRef n (tc.incLockRef n t) = t
  room_incLockRef : ∀ n t, tc.room (tc.incLockRef n t) ≤ tc.room t
  room_releaseReq : ∀ rid left t, tc.room t ≤ tc.room (tc.releaseReq rid left t)
  matchPrefix_le : ∀ rid len t, (tc.matchPrefix rid len t).1 ≤ len

end TreeCache

inductive AddReqResult where
  | continue
  | noToken
  | other
  deriving DecidableEq

/-- What is fixed for a round. -/
structure Setup (ν τ α : Type*) where
  pageSize : ℕ
  treeCache : TreeCache ν τ
  newTokenRatio : α
  /-- `CLIP_MAX_NEW_TOKENS`. -/
  clipMaxNewTokens : ℕ := 4096
  priorityThreshold : ℤ := 10
  lowPriorityFirst : Bool := false
  prefillMaxRequests : Option ℕ := none
  cpInSeqSplit : Bool := false
  truncationAlignSize : Option ℕ := none
  /-- With an alignment of zero there is a division by zero where a request is cut. -/
  align_pos : ∀ align ∈ truncationAlignSize, 0 < align := by simp
  /-- When the requests of a round are queued again, one after the other. -/
  clock : ℕ → α

/-- `PrefillAdder`. -/
structure Adder (ν τ α : Type*) where
  pool : τ
  running : List (Req ν α)
  remInputTokens : ℤ
  remChunkTokens : Option ℤ
  remTotalTokenOffset : α
  curRemTokenOffset : ℤ
  reqStates : Option (List (α × ℕ)) := none
  canRunList : List (Req ν α) := []
  preemptList : List (Req ν α) := []
  newChunkedReq : Option (Req ν α) := none

section Source

variable {ν τ α : Type*} [Field α] [LinearOrder α] [FloorRing α] (s : Setup ν τ α)

/-- `int` of a float. -/
def int (x : α) : ℤ := if 0 ≤ x then ⌊x⌋ else ⌈x⌉

def Setup.prioritySign : ℤ := if s.lowPriorityFirst then 1 else -1

/-- `ceil_paged_tokens`. -/
def Setup.ceilPagedTokens (tokens : ℤ) : ℤ := -(-tokens / s.pageSize) * s.pageSize

/-- `_get_running_request_total_token_offset`. -/
def Setup.runningOffset (r : Req ν α) : α :=
  (min (r.maxNewTokens - r.outputIds) s.clipMaxNewTokens : ℤ) * s.newTokenRatio

/-- `PrefillAdder.__init__`. -/
def Setup.adder (pool : τ) (running : List (Req ν α)) (remInputTokens : ℤ) (remChunkTokens : Option ℤ)
    (mixedWithDecodeTokens : ℕ) : Adder ν τ α where
  pool := pool
  running := running
  remInputTokens := remInputTokens - mixedWithDecodeTokens
  remChunkTokens := remChunkTokens.map (· - (mixedWithDecodeTokens : ℤ))
  remTotalTokenOffset := mixedWithDecodeTokens + (running.map s.runningOffset).sum
  curRemTokenOffset := mixedWithDecodeTokens

def Req.fillIds (r : Req ν α) : ℕ := r.originInputIds + r.outputIds

/-- `init_next_round_input` without a cache. -/
def Req.initNextRoundInput (r : Req ν α) : Req ν α :=
  { r with extendInputLen := (r.fillIds : ℤ) - r.prefixIndices }

/-- `reset_for_retract`. The node is found again before it is read. -/
def Req.resetForRetract (r : Req ν α) : Req ν α := { r with prefixIndices := 0, extendInputLen := 0 }

/-- `init_next_round_input`. -/
def Setup.initNextRoundInput (pool : τ) (r : Req ν α) : Req ν α :=
  let maxPrefixLen := r.logprobStartLen.elim (r.fillIds - 1) (min (r.fillIds - 1))
  let found := s.treeCache.matchPrefix r.rid maxPrefixLen pool
  { r with prefixIndices := found.1, lastNode := found.2 }.initNextRoundInput

namespace Adder

variable (a : Adder ν τ α) (req : Req ν α)

def remTotalTokens : α := s.treeCache.room a.pool - a.remTotalTokenOffset

def curRemTokens : ℤ := s.treeCache.room a.pool - a.curRemTokenOffset

def budgetState : AddReqResult :=
  if a.remTotalTokens s ≤ 0 ∨ a.curRemTokens s ≤ 0 then .noToken
  else if a.remInputTokens ≤ 0 then .other
  else if a.remChunkTokens.any (· ≤ 0) then .other
  else .continue

/-- `_update_prefill_budget`. -/
def updatePrefillBudget (extendInputLen maxNewTokens : ℤ) : Adder ν τ α :=
  let extendInputLen := s.ceilPagedTokens extendInputLen
  { a with
    remTotalTokenOffset := a.remTotalTokenOffset + (extendInputLen + maxNewTokens : ℤ)
    curRemTokenOffset := a.curRemTokenOffset + extendInputLen
    remInputTokens := a.remInputTokens - extendInputLen
    remChunkTokens := a.remChunkTokens.map (· - extendInputLen) }

/-- `can_run_list.append`. -/
def append : Adder ν τ α := { a with canRunList := a.canRunList ++ [req] }

def lock (n : ν) : Adder ν τ α := { a with pool := s.treeCache.incLockRef n a.pool }

def unlock (n : ν) : Adder ν τ α := { a with pool := s.treeCache.decLockRef n a.pool }

/-- How many tokens a chunked request gets. It gets a chunk where there is nothing for it. -/
def chunkRem (chunk : ℤ) : ℤ :=
  let rem := min chunk (int (a.remTotalTokens s))
  if rem ≤ 0 then chunk else rem

/-- `add_chunked_req`; `none` is a raise. Beside the adder it returns the request if it has not got to its end. -/
def addChunkedReq : Option (Option (Req ν α) × Adder ν τ α) :=
  a.remChunkTokens.map fun chunk =>
    let rem := a.chunkRem s chunk
    let truncated := rem < req.extendInputLen
    let req := { req with extendInputLen := min req.extendInputLen rem }
    (if truncated then some req else none, (a.append req).updatePrefillBudget s req.extendInputLen
      (if truncated then 0 else min req.maxNewTokens s.clipMaxNewTokens))

/-! ### Requests that run to their length -/

/-- `add_req_state`: how many tokens a request still produces, and how many it holds. -/
def reqState (r : Req ν α) : Option (α × ℕ) :=
  let tokensLeft : α := r.maxNewTokens * (if r.ignoreEos then 1 else s.newTokenRatio) - r.outputIds
  if tokensLeft ≤ 0 then none else some (tokensLeft, r.originInputIds + r.outputIds)

/-- Where `insert_sort` puts a state. -/
def insertState (states : List (α × ℕ)) (x : α × ℕ) : List (α × ℕ) :=
  states.insertIdx ((states.findIdx? fun y => x.1 ≤ y.1).getD (states.length - 1)) x

/-- No request is left without a token when those before it have ended. -/
def lasts (curRemTokens : α) : List (α × ℕ) → Bool
  | [] => true
  | (tokensLeft, tokensOccupied) :: states =>
    let bs : α := (states.length + 1 : ℕ)
    !(curRemTokens - tokensLeft * bs ≤ bs) && lasts (curRemTokens + tokensOccupied) states

/-- `add_one_req_ignore_eos`. -/
def addOneReqIgnoreEos : AddReqResult × Adder ν τ α :=
  if min (a.curRemTokens s : α) (a.remTotalTokens s) < s.ceilPagedTokens req.extendInputLen then (.noToken, a)
  else
    let states := a.reqStates.elim
      (Argsort.stable.asc Prod.fst (([req] ++ a.running ++ a.canRunList).filterMap (reqState s)))
      fun states => (reqState s req).elim states (insertState states)
    let a := { a with reqStates := some states }
    if ¬ lasts ((a.curRemTokens s - s.ceilPagedTokens req.extendInputLen : ℤ) : α) states then (.noToken, a)
    else if a.remChunkTokens.all (req.extendInputLen ≤ ·) then
      let a := (a.append req).updatePrefillBudget s req.extendInputLen (min req.maxNewTokens s.clipMaxNewTokens)
      (a.budgetState s, a)
    else if a.remChunkTokens.any (· ≤ 0) then (.other, a)
    else
      let req := { req with extendInputLen := a.remChunkTokens.getD 0 }
      let a := { a.append req with newChunkedReq := some req }
      let a := a.updatePrefillBudget s req.extendInputLen 0
      (a.budgetState s, a)

/-! ### One waiting request -/

/-- How much of a request is taken if `chunk` tokens are left of the chunk. -/
def truncLen (chunk : ℤ) : Option ℤ :=
  let len := chunk / s.pageSize * s.pageSize
  if len ≤ 0 then none
  else
    let aligned := s.truncationAlignSize.elim (some len) fun (align : ℕ) =>
      if len < align then none else some (align * (len / align))
    aligned.bind fun len =>
      let len := (len + req.prefixIndices) / s.pageSize * s.pageSize - req.prefixIndices
      if len ≤ 0 then none else some len

/-- `add_one_req` inside of the lock. -/
def addLocked (allow : Bool) (maxNew totalTokens : ℤ) : Except AddReqResult (Adder ν τ α) :=
  let inputTokens := s.ceilPagedTokens req.extendInputLen
  if a.remTotalTokens s ≤ totalTokens then .error .noToken
  else if a.remInputTokens ≤ inputTokens ∧ a.canRunList ≠ [] then .error .other
  else if ¬ allow then .error .other
  else if a.remChunkTokens.all (inputTokens ≤ ·) then
    .ok (((a.append req).lock s req.lastNode).updatePrefillBudget s inputTokens maxNew)
  else (truncLen s req (a.remChunkTokens.getD 0)).elim (.error .other) fun len =>
    let req := { req with extendInputLen := len }
    .ok (({ a.append req with newChunkedReq := some req }.lock s req.lastNode).updatePrefillBudget s len 0)

/-- The tokens reserved for the output. The first request of an idle server gets what there is. -/
def maxNew : ℤ :=
  let maxNew := min (max (req.maxNewTokens - req.outputIds) 0) s.clipMaxNewTokens
  if a.remTotalTokens s ≤ (req.extendInputLen + maxNew + s.pageSize : ℤ) ∧ a.canRunList = [] ∧ a.running = [] then
    max 0 (int (a.remTotalTokens s) - req.extendInputLen - s.pageSize - 1)
  else maxNew

/-- `add_one_req`; `allow` is the answer of the prefill delayer. -/
def addOneReq (allow : Bool) : AddReqResult × Adder ν τ α :=
  if s.cpInSeqSplit ∧ 1 ≤ a.canRunList.length then (.other, a)
  else if s.prefillMaxRequests.any (· ≤ a.canRunList.length) then (.other, a)
  else if req.ignoreEos ∧ s.treeCache.disable then a.addOneReqIgnoreEos s req
  else
    let maxNew := a.maxNew s req
    let totalTokens := req.extendInputLen + maxNew + s.pageSize
    if a.remTotalTokens s ≤ totalTokens then (.noToken, a)
    else if a.remInputTokens ≤ s.ceilPagedTokens req.extendInputLen ∧ a.canRunList ≠ [] then (.other, a)
    else
      match (a.lock s req.lastNode).addLocked s req allow maxNew totalTokens with
      | .error res => (res, (a.lock s req.lastNode).unlock s req.lastNode)
      | .ok a => ((a.unlock s req.lastNode).budgetState s, a.unlock s req.lastNode)

/-! ### Preemption -/

/-- The running requests to give up, the least important first, until enough tokens are free. -/
def preemptible (more : Req ν α → Bool) : List (Req ν α) → α → List (Req ν α) × α
  | [], tokens => ([], tokens)
  | r :: rs, tokens =>
    if ¬ more r then ([], tokens)
    else
      let tokens := tokens - s.runningOffset r
      if tokens ≤ 0 then ([r], tokens)
      else
        let (taken, tokens) := preemptible more rs tokens
        (r :: taken, tokens)

/-- The running requests in the order in which they are given up. -/
def victims : List (Req ν α) :=
  Argsort.stable.asc (fun r : Req ν α => toLex (r.priority * -s.prioritySign, -r.waitQueueEntryTime))
    (a.running.filter fun r => ¬ (a.preemptList.any (·.rid = r.rid)) ∧ ¬ r.finished)

/-- Give requests up, with what they hold. -/
def release (taken : List (Req ν α)) : Adder ν τ α :=
  let out := a.running.filter fun r => taken.any (·.rid = r.rid)
  { a with
    running := a.running.filter fun r => ¬ taken.any (·.rid = r.rid)
    remTotalTokenOffset := a.remTotalTokenOffset - (out.map s.runningOffset).sum
    pool := (out.zipIdx 1).foldl (fun pool x => s.treeCache.releaseReq x.1.rid (a.running.length - x.2) pool) a.pool
    preemptList := a.preemptList ++ taken.map Req.resetForRetract }

/-- `preempt_to_schedule`. -/
def preemptToSchedule : Bool × Adder ν τ α :=
  let tokens : α := (req.extendInputLen + min req.maxNewTokens s.clipMaxNewTokens : ℤ) - a.remTotalTokens s
  let (taken, tokens) := preemptible s
    (fun r => s.priorityThreshold < (req.priority - r.priority) * -s.prioritySign) (a.victims s) tokens
  if taken = [] ∨ 0 < tokens then (false, a) else (true, a.release s taken)

end Adder

end Source

/-! ## Whole pages -/

section Pages

variable {ν τ α : Type*} {s : Setup ν τ α} {t u : ℤ}

theorem le_ceilPagedTokens (hpage : 0 < s.pageSize) : t ≤ s.ceilPagedTokens t := by
  have hsplit : -t / s.pageSize * s.pageSize + -t % s.pageSize = -t := Int.ediv_mul_add_emod ..
  have hmod : 0 ≤ -t % (s.pageSize : ℤ) := Int.emod_nonneg _ (by omega)
  unfold Setup.ceilPagedTokens
  rw [neg_mul]
  omega

theorem ceilPagedTokens_lt (hpage : 0 < s.pageSize) : s.ceilPagedTokens t < t + s.pageSize := by
  have hsplit : -t / s.pageSize * s.pageSize + -t % s.pageSize = -t := Int.ediv_mul_add_emod ..
  have hmod : -t % (s.pageSize : ℤ) < s.pageSize := Int.emod_lt_of_pos _ (by omega)
  unfold Setup.ceilPagedTokens
  rw [neg_mul]
  omega

theorem dvd_ceilPagedTokens : (s.pageSize : ℤ) ∣ s.ceilPagedTokens t := Dvd.intro_left _ rfl

/-- Whole pages less than a page apart are equal. -/
theorem le_of_pages (hpage : 0 < s.pageSize) (ht : (s.pageSize : ℤ) ∣ t) (hu : (s.pageSize : ℤ) ∣ u)
    (hlt : t < u + s.pageSize) : t ≤ u := by
  obtain ⟨k, rfl⟩ := ht
  obtain ⟨l, rfl⟩ := hu
  have hpos : (0 : ℤ) < s.pageSize := by omega
  have hkl : k < l + 1 := by
    apply lt_of_mul_lt_mul_left _ hpos.le
    rw [mul_add, mul_one]
    exact hlt
  exact mul_le_mul_of_nonneg_left (by omega) hpos.le

theorem ceilPagedTokens_le (hpage : 0 < s.pageSize) (hle : t ≤ u) (hdvd : (s.pageSize : ℤ) ∣ u) :
    s.ceilPagedTokens t ≤ u :=
  le_of_pages hpage dvd_ceilPagedTokens hdvd ((ceilPagedTokens_lt hpage).trans_le (by omega))

theorem ceilPagedTokens_mono (hpage : 0 < s.pageSize) (hle : t ≤ u) : s.ceilPagedTokens t ≤ s.ceilPagedTokens u :=
  ceilPagedTokens_le hpage (hle.trans (le_ceilPagedTokens hpage)) dvd_ceilPagedTokens

theorem ceilPagedTokens_of_dvd (hpage : 0 < s.pageSize) (hdvd : (s.pageSize : ℤ) ∣ t) : s.ceilPagedTokens t = t :=
  le_antisymm (ceilPagedTokens_le hpage le_rfl hdvd) (le_ceilPagedTokens hpage)

theorem ceilPagedTokens_idem (hpage : 0 < s.pageSize) : s.ceilPagedTokens (s.ceilPagedTokens t) = s.ceilPagedTokens t :=
  ceilPagedTokens_of_dvd hpage dvd_ceilPagedTokens

end Pages

/-! ## What one request does -/

section Steps

variable {ν τ α : Type*} [Field α] [LinearOrder α] {s : Setup ν τ α} {a b : Adder ν τ α} {req : Req ν α}

/-- The first `len` tokens of a request are taken, with `maxNew` more reserved for its output. -/
structure Takes (s : Setup ν τ α) (a b : Adder ν τ α) (req : Req ν α) (len maxNew : ℤ) : Prop where
  canRunList : b.canRunList = a.canRunList ++ [{ req with extendInputLen := len }]
  running : b.running = a.running
  preemptList : b.preemptList = a.preemptList
  total : b.remTotalTokenOffset = a.remTotalTokenOffset + (s.ceilPagedTokens len + maxNew : ℤ)
  cur : b.curRemTokenOffset = a.curRemTokenOffset + s.ceilPagedTokens len
  chunk : b.remChunkTokens = a.remChunkTokens.map (· - s.ceilPagedTokens len)
  nonneg : 0 ≤ maxNew
  room : a.curRemTokenOffset + s.ceilPagedTokens len ≤ s.treeCache.room b.pool
  /-- All of the request is taken, or what the chunk has left. -/
  whole : len = req.extendInputLen ∧ b.newChunkedReq = a.newChunkedReq ∨
    len < req.extendInputLen ∧ b.newChunkedReq = some { req with extendInputLen := len } ∧
      (s.treeCache.disable = false → ∃ chunk, a.remChunkTokens = some chunk ∧ Adder.truncLen s req chunk = some len)
  enough : s.treeCache.disable = false → ((req.extendInputLen + s.pageSize : ℤ) : α) < a.remTotalTokens s

/-- The whole pages in a number of tokens. -/
def Setup.floorPaged (s : Setup ν τ α) (tokens : ℤ) : ℤ := tokens / s.pageSize * s.pageSize

omit [Field α] [LinearOrder α] in
theorem floorPaged_le (hpage : 0 < s.pageSize) (t : ℤ) : s.floorPaged t ≤ t := Int.ediv_mul_le t (by omega)

omit [Field α] [LinearOrder α] in
theorem floorPaged_mono (hpage : 0 < s.pageSize) {t u : ℤ} (hle : t ≤ u) : s.floorPaged t ≤ s.floorPaged u := by
  have hdiv : t / s.pageSize ≤ u / s.pageSize := Int.ediv_le_ediv (by omega) hle
  exact mul_le_mul_of_nonneg_right hdiv (by omega)

omit [Field α] [LinearOrder α] in
theorem lt_floorPaged (hpage : 0 < s.pageSize) (t : ℤ) : t < s.floorPaged t + s.pageSize := by
  have hsplit : t / s.pageSize * s.pageSize + t % s.pageSize = t := Int.ediv_mul_add_emod ..
  have hmod : t % (s.pageSize : ℤ) < s.pageSize := Int.emod_lt_of_pos _ (by omega)
  unfold Setup.floorPaged
  omega

/-- The multiple of the alignment that is taken out of `chunk` tokens. -/
def Setup.alignedLen (s : Setup ν τ α) (chunk : ℤ) : ℤ :=
  s.truncationAlignSize.elim (s.floorPaged chunk) fun (align : ℕ) => align * (s.floorPaged chunk / align)

/-- Nothing is cut to what the chunk has left. -/
def Setup.Closed (s : Setup ν τ α) (chunk : ℤ) : Prop :=
  s.floorPaged chunk ≤ 0 ∨ ∃ align ∈ s.truncationAlignSize, s.floorPaged chunk < (align : ℤ)

omit [Field α] [LinearOrder α] in
theorem Setup.Closed.mono (hpage : 0 < s.pageSize) {c c' : ℤ} (h : s.Closed c) (hle : c' ≤ c) : s.Closed c' := by
  rcases h with hnone | ⟨align, halign, hlt⟩
  · exact .inl ((floorPaged_mono hpage hle).trans hnone)
  · exact .inr ⟨align, halign, (floorPaged_mono hpage hle).trans_lt hlt⟩

omit [Field α] [LinearOrder α] in
theorem truncLen_eq_some {chunk len : ℤ} (h : Adder.truncLen s req chunk = some len) :
    ¬ s.Closed chunk ∧ 0 < len ∧
      len = s.floorPaged (s.alignedLen chunk + req.prefixIndices) - req.prefixIndices := by
  unfold Adder.truncLen at h
  dsimp only at h
  split at h
  · cases h
  · next hchunk =>
    obtain ⟨aligned, haligned, hlen⟩ := Option.bind_eq_some_iff.1 h
    have hcut : 0 < len ∧ len = s.floorPaged (aligned + req.prefixIndices) - req.prefixIndices := by
      split at hlen
      · cases hlen
      · next hpos =>
        obtain rfl := Option.some.inj hlen
        exact ⟨not_le.1 hpos, rfl⟩
    cases htrunc : s.truncationAlignSize with
    | none =>
      rw [htrunc] at haligned
      obtain rfl := Option.some.inj haligned
      simp only [Setup.Closed, Setup.alignedLen, htrunc, Option.elim_none]
      exact ⟨fun hclosed => hclosed.elim hchunk fun ⟨_, hmem, _⟩ => (nomatch hmem), hcut⟩
    | some align =>
      rw [htrunc, Option.elim_some] at haligned
      split at haligned
      · cases haligned
      · next hlt =>
        obtain rfl := Option.some.inj haligned
        simp only [Setup.Closed, Setup.alignedLen, htrunc, Option.elim_some, Option.mem_some_iff]
        refine ⟨fun hclosed => hclosed.elim hchunk ?_, hcut⟩
        rintro ⟨_, rfl, hlt'⟩
        exact hlt hlt'

omit [Field α] [LinearOrder α] in
theorem truncLen_of_closed {chunk : ℤ} (h : s.Closed chunk) : Adder.truncLen s req chunk = none :=
  Option.eq_none_iff_forall_ne_some.2 fun _ hlen => (truncLen_eq_some hlen).1 h

omit [Field α] [LinearOrder α] in
theorem alignedLen_le {chunk : ℤ} : s.alignedLen chunk ≤ s.floorPaged chunk := by
  unfold Setup.alignedLen
  cases htrunc : s.truncationAlignSize with
  | none => exact le_rfl
  | some align =>
    have halign : 0 < align := s.align_pos align htrunc
    exact Int.mul_ediv_self_le (by omega)

omit [Field α] [LinearOrder α] in
/-- What is cut fits into the chunk, in whole pages. -/
theorem truncLen_le (hpage : 0 < s.pageSize) {chunk len : ℤ} (h : Adder.truncLen s req chunk = some len) :
    s.ceilPagedTokens len ≤ s.floorPaged chunk := by
  obtain ⟨hopen, hpos, rfl⟩ := truncLen_eq_some h
  have hfloor := floorPaged_le (s := s) hpage (s.alignedLen chunk + req.prefixIndices)
  have hle : s.floorPaged (s.alignedLen chunk + req.prefixIndices) - req.prefixIndices ≤ s.floorPaged chunk := by
    have haligned : s.alignedLen chunk ≤ s.floorPaged chunk := alignedLen_le
    omega
  exact ceilPagedTokens_le hpage hle (Dvd.intro_left _ rfl)

omit [Field α] [LinearOrder α] in
/-- If alignments are whole pages, nothing more is cut after it. -/
theorem closed_after_cut (hpage : 0 < s.pageSize) (halign : ∀ align ∈ s.truncationAlignSize, s.pageSize ∣ align)
    {chunk len : ℤ} (h : Adder.truncLen s req chunk = some len) : s.Closed (chunk - s.ceilPagedTokens len) := by
  obtain ⟨hopen, hpos, rfl⟩ := truncLen_eq_some h
  have hdvd : (s.pageSize : ℤ) ∣ s.alignedLen chunk := by
    unfold Setup.alignedLen
    cases htrunc : s.truncationAlignSize with
    | none => exact Dvd.intro_left _ rfl
    | some align => exact (Int.natCast_dvd_natCast.2 (halign align htrunc)).mul_right _
  have hceil : s.ceilPagedTokens (s.floorPaged (s.alignedLen chunk + req.prefixIndices) - req.prefixIndices) =
      s.alignedLen chunk := by
    apply le_antisymm
    · have hfloor := floorPaged_le (s := s) hpage (s.alignedLen chunk + req.prefixIndices)
      exact ceilPagedTokens_le hpage (by omega) hdvd
    · have hfloor := lt_floorPaged (s := s) hpage (s.alignedLen chunk + req.prefixIndices)
      have hlen : s.alignedLen chunk <
          s.floorPaged (s.alignedLen chunk + req.prefixIndices) - req.prefixIndices + s.pageSize := by omega
      exact le_of_pages hpage hdvd dvd_ceilPagedTokens
        (hlen.trans_le (add_le_add_left (le_ceilPagedTokens hpage) _))
  have hrest : s.floorPaged (chunk - s.alignedLen chunk) = s.floorPaged chunk - s.alignedLen chunk := by
    obtain ⟨k, hk⟩ := hdvd
    have hpos : (s.pageSize : ℤ) ≠ 0 := by omega
    unfold Setup.floorPaged
    rw [hk, mul_comm (s.pageSize : ℤ) k, sub_eq_add_neg, ← neg_mul, Int.add_mul_ediv_right _ _ hpos, add_mul, neg_mul,
      ← sub_eq_add_neg]
  rw [hceil]
  unfold Setup.Closed
  rw [hrest]
  unfold Setup.alignedLen
  cases htrunc : s.truncationAlignSize with
  | none => exact .inl (by simp)
  | some align =>
    have halign : 0 < align := s.align_pos align htrunc
    refine .inr ⟨align, rfl, ?_⟩
    have hsplit := Int.mul_ediv_add_emod (s.floorPaged chunk) align
    have hmod : s.floorPaged chunk % (align : ℤ) < align := Int.emod_lt_of_pos _ (by omega)
    simp only [Option.elim_some]
    omega

variable [IsStrictOrderedRing α] [FloorRing α]

omit [Field α] [LinearOrder α] [FloorRing α] [IsStrictOrderedRing α] in
theorem exists_lt_of_not_all {o : Option ℤ} {x : ℤ} (h : ¬ o.all (x ≤ ·) = true) : ∃ c, o = some c ∧ c < x := by
  cases o with
  | none => exact absurd rfl h
  | some c => exact ⟨c, rfl, by simpa using h⟩

/-- What the part inside of the lock takes fits into the room that the lock leaves. -/
theorem addLocked_takes (hpage : 0 < s.pageSize) (hl : s.treeCache.Lawful) {allow : Bool} {maxNew : ℤ}
    (hnew : 0 ≤ maxNew) (hle : (a.curRemTokenOffset : α) ≤ a.remTotalTokenOffset)
    (h : (a.lock s req.lastNode).addLocked s req allow maxNew (req.extendInputLen + maxNew + s.pageSize) = .ok b) :
    ∃ len maxNew, Takes s a (b.unlock s req.lastNode) req len maxNew := by
  unfold Adder.addLocked at h
  dsimp only at h
  split at h
  · cases h
  · next htotal =>
    have htotal := not_le.1 htotal
    have hlock := hl.room_incLockRef req.lastNode a.pool
    have henough : ((req.extendInputLen + s.pageSize : ℤ) : α) < a.remTotalTokens s := by
      apply lt_of_le_of_lt (Int.cast_le.2 (show req.extendInputLen + s.pageSize ≤
        req.extendInputLen + maxNew + s.pageSize by omega))
      exact htotal.trans_le (sub_le_sub_right (Nat.cast_le.2 hlock) _)
    have hroom : a.curRemTokenOffset + s.ceilPagedTokens req.extendInputLen ≤
        s.treeCache.room (s.treeCache.incLockRef req.lastNode a.pool) := by
      have hceil : s.ceilPagedTokens req.extendInputLen ≤ req.extendInputLen + maxNew + s.pageSize :=
        (ceilPagedTokens_lt hpage).le.trans (by omega)
      have hceil : ((s.ceilPagedTokens req.extendInputLen : ℤ) : α) ≤ _ := Int.cast_le.2 hceil
      have hlt : ((a.curRemTokenOffset + s.ceilPagedTokens req.extendInputLen : ℤ) : α) <
          ((s.treeCache.room (s.treeCache.incLockRef req.lastNode a.pool) : ℤ) : α) := by
        have htotal : _ < (s.treeCache.room (s.treeCache.incLockRef req.lastNode a.pool) : α) -
          a.remTotalTokenOffset := htotal
        rw [Int.cast_add, Int.cast_natCast]
        linarith
      exact (Int.cast_lt.1 hlt).le
    have hpool : ∀ t, s.treeCache.decLockRef req.lastNode (s.treeCache.incLockRef req.lastNode t) = t :=
      hl.decLockRef_incLockRef req.lastNode
    split at h
    · cases h
    · split at h
      · cases h
      · split at h
        · cases h
          have hidem : s.ceilPagedTokens (s.ceilPagedTokens req.extendInputLen) = s.ceilPagedTokens req.extendInputLen :=
            ceilPagedTokens_idem hpage
          refine ⟨req.extendInputLen, maxNew, rfl, rfl, rfl, ?_, ?_, ?_, hnew, ?_, .inl ⟨rfl, rfl⟩, fun _ => henough⟩
          · show a.remTotalTokenOffset + (s.ceilPagedTokens (s.ceilPagedTokens req.extendInputLen) + maxNew : ℤ) = _
            rw [hidem]
          · show a.curRemTokenOffset + s.ceilPagedTokens (s.ceilPagedTokens req.extendInputLen) = _
            rw [hidem]
          · show a.remChunkTokens.map (· - s.ceilPagedTokens (s.ceilPagedTokens req.extendInputLen)) = _
            rw [hidem]
          · show _ ≤ (s.treeCache.room (s.treeCache.decLockRef _ (s.treeCache.incLockRef _ _)) : ℤ)
            rw [hpool]
            exact hroom
        · next hlong =>
          obtain ⟨chunk, hchunk, hlt⟩ : ∃ chunk, a.remChunkTokens = some chunk ∧
              chunk < s.ceilPagedTokens req.extendInputLen := exists_lt_of_not_all hlong
          have hgetD : (a.lock s req.lastNode).remChunkTokens.getD 0 = chunk := congrArg (·.getD 0) hchunk
          rw [hgetD] at h
          cases hlen : Adder.truncLen s req chunk with
          | none =>
            rw [hlen] at h
            cases h
          | some len =>
            rw [hlen] at h
            cases h
            have hle : s.ceilPagedTokens len ≤ chunk := (truncLen_le hpage hlen).trans (floorPaged_le hpage chunk)
            refine ⟨len, 0, rfl, rfl, rfl, rfl, rfl, rfl, le_rfl, ?_, .inr ⟨?_, rfl, fun _ => ⟨chunk, hchunk, hlen⟩⟩,
              fun _ => henough⟩
            · show _ ≤ (s.treeCache.room (s.treeCache.decLockRef _ (s.treeCache.incLockRef _ _)) : ℤ)
              rw [hpool]
              exact le_trans (by omega) hroom
            · -- a whole request would have whole pages left over
              by_contra hnot
              exact absurd (ceilPagedTokens_mono hpage (not_lt.1 hnot)) (by omega)

theorem addOneReqIgnoreEos_takes (hpage : 0 < s.pageSize) (hnew : 0 ≤ req.maxNewTokens)
    (hdisable : s.treeCache.disable = true) :
    (∃ states, (a.addOneReqIgnoreEos s req).2 = { a with reqStates := states }) ∨
      ∃ len maxNew, Takes s a (a.addOneReqIgnoreEos s req).2 req len maxNew := by
  have hclip : 0 ≤ min req.maxNewTokens s.clipMaxNewTokens := le_min hnew (Int.natCast_nonneg _)
  have hcached : s.treeCache.disable = false → False := fun h => Bool.false_ne_true (h.symm.trans hdisable)
  unfold Adder.addOneReqIgnoreEos
  split
  · exact .inl ⟨a.reqStates, rfl⟩
  · next hroom =>
    have hroom : a.curRemTokenOffset + s.ceilPagedTokens req.extendInputLen ≤ s.treeCache.room a.pool := by
      have hcur := (not_lt.1 hroom).trans (min_le_left _ _)
      have hcur : s.ceilPagedTokens req.extendInputLen ≤ a.curRemTokens s := Int.cast_le.1 hcur
      unfold Adder.curRemTokens at hcur
      omega
    dsimp only
    split
    · exact .inl ⟨_, rfl⟩
    · split
      · exact .inr ⟨req.extendInputLen, _, rfl, rfl, rfl, rfl, rfl, rfl, hclip, hroom, .inl ⟨rfl, rfl⟩,
          fun h => (hcached h).elim⟩
      · next hlong =>
        split
        · exact .inl ⟨_, rfl⟩
        · obtain ⟨chunk, hchunk, hlt⟩ := exists_lt_of_not_all hlong
          have hgetD : a.remChunkTokens.getD 0 = chunk := congrArg (·.getD 0) hchunk
          rw [hgetD]
          refine .inr ⟨chunk, 0, rfl, rfl, rfl, rfl, rfl, rfl, le_rfl, ?_, .inr ⟨hlt, rfl, fun h => (hcached h).elim⟩,
            fun h => (hcached h).elim⟩
          exact le_trans (Int.add_le_add_left (ceilPagedTokens_mono hpage hlt.le) _) hroom

omit [IsStrictOrderedRing α] in
theorem maxNew_nonneg : 0 ≤ a.maxNew s req := by
  unfold Adder.maxNew
  dsimp only
  split
  · exact le_max_left _ _
  · exact le_min (le_max_right _ _) (Int.natCast_nonneg _)

/-- Where nothing is cached, a request that ignores the end of its output asks for no negative number of tokens. -/
def Setup.Asks (s : Setup ν τ α) (r : Req ν α) : Prop :=
  r.ignoreEos = true → s.treeCache.disable = true → 0 ≤ r.maxNewTokens

omit [Field α] [LinearOrder α] [FloorRing α] [IsStrictOrderedRing α] in
theorem Setup.Asks.of_cached (hcached : s.treeCache.disable = false) : s.Asks req := fun _ hdisable =>
  absurd (hcached.symm.trans hdisable) Bool.false_ne_true

omit [Field α] [LinearOrder α] [FloorRing α] [IsStrictOrderedRing α] in
theorem Setup.Asks.initNextRoundInput (h : s.Asks req) (pool : τ) : s.Asks (s.initNextRoundInput pool req) := h

/-- **One request.** It leaves the adder as it was, but for the states that `ignore_eos` looks at, or some of it is
taken. -/
theorem addOneReq_cases (hpage : 0 < s.pageSize) (hl : s.treeCache.Lawful)
    (hnew : s.Asks req)
    (hle : (a.curRemTokenOffset : α) ≤ a.remTotalTokenOffset) (allow : Bool) :
    (∃ states, (a.addOneReq s req allow).2 = { a with reqStates := states }) ∨
      ∃ len maxNew, Takes s a (a.addOneReq s req allow).2 req len maxNew := by
  unfold Adder.addOneReq
  split
  · exact .inl ⟨a.reqStates, rfl⟩
  · split
    · exact .inl ⟨a.reqStates, rfl⟩
    · split
      · next heos => exact addOneReqIgnoreEos_takes hpage (hnew heos.1 heos.2) heos.2
      · dsimp only
        split
        · exact .inl ⟨a.reqStates, rfl⟩
        · split
          · exact .inl ⟨a.reqStates, rfl⟩
          · cases hlocked : (a.lock s req.lastNode).addLocked s req allow (a.maxNew s req)
              (req.extendInputLen + a.maxNew s req + s.pageSize) with
            | error res =>
              have hunlock : (a.lock s req.lastNode).unlock s req.lastNode = a := by
                unfold Adder.lock Adder.unlock
                rw [hl.decLockRef_incLockRef]
              exact .inl ⟨a.reqStates, hunlock⟩
            | ok b => exact .inr (addLocked_takes hpage hl maxNew_nonneg hle hlocked)

/-- It preempts nobody. -/
theorem addOneReq_preemptList (hpage : 0 < s.pageSize) (hl : s.treeCache.Lawful) (hnew : s.Asks req)
    (hle : (a.curRemTokenOffset : α) ≤ a.remTotalTokenOffset) (allow : Bool) :
    (a.addOneReq s req allow).2.preemptList = a.preemptList := by
  rcases addOneReq_cases hpage hl hnew hle allow with ⟨states, heq⟩ | ⟨len, maxNew, ht⟩
  · rw [heq]
  · exact ht.preemptList

end Steps

/-! ## What is reserved -/

section Reserves

variable {ν τ α : Type*} [Field α] [LinearOrder α] [FloorRing α] {s : Setup ν τ α} {a b : Adder ν τ α} {req : Req ν α}
  {mixed : ℕ}

/-- The tokens of the requests taken so far, in whole pages. -/
def Adder.taken (s : Setup ν τ α) (a : Adder ν τ α) : ℤ :=
  (a.canRunList.map fun r => s.ceilPagedTokens r.extendInputLen).sum

/-- The total has what is taken, and beside it what the running requests may still need. -/
structure Accounts (s : Setup ν τ α) (a : Adder ν τ α) : Prop where
  total : (a.curRemTokenOffset : α) + (a.running.map s.runningOffset).sum ≤ a.remTotalTokenOffset
  running : ∀ r ∈ a.running, 0 ≤ s.runningOffset r

/-- What is taken fits. -/
structure Reserves (s : Setup ν τ α) (mixed : ℕ) (a : Adder ν τ α) : Prop extends Accounts s a where
  cur : a.curRemTokenOffset = mixed + a.taken s
  fits : a.taken s ≤ s.treeCache.room a.pool

omit [FloorRing α] in
theorem accounts_adder (pool : τ) {running : List (Req ν α)} (hrunning : ∀ r ∈ running, 0 ≤ s.runningOffset r)
    (remInput : ℤ) (remChunk : Option ℤ) : Accounts s (s.adder pool running remInput remChunk mixed) where
  total := by
    show (((mixed : ℕ) : ℤ) : α) + (running.map s.runningOffset).sum ≤ mixed + (running.map s.runningOffset).sum
    rw [Int.cast_natCast]
  running := hrunning

omit [FloorRing α] in
theorem reserves_adder (pool : τ) {running : List (Req ν α)} (hrunning : ∀ r ∈ running, 0 ≤ s.runningOffset r)
    (remInput : ℤ) (remChunk : Option ℤ) : Reserves s mixed (s.adder pool running remInput remChunk mixed) where
  toAccounts := accounts_adder pool hrunning remInput remChunk
  cur := (add_zero _).symm
  fits := Int.natCast_nonneg _

variable [IsStrictOrderedRing α]

omit [FloorRing α] in
theorem Accounts.cur_le (h : Accounts s a) : (a.curRemTokenOffset : α) ≤ a.remTotalTokenOffset := by
  have hsum : 0 ≤ (a.running.map s.runningOffset).sum := by
    apply List.sum_nonneg
    intro x hx
    obtain ⟨r, hr, rfl⟩ := List.mem_map.1 hx
    exact h.running r hr
  exact le_trans (le_add_of_nonneg_right hsum) h.total

omit [FloorRing α] in
theorem Accounts.takes (h : Accounts s a) {len maxNew : ℤ} (ht : Takes s a b req len maxNew) : Accounts s b where
  total := by
    have htotal := h.total
    have hnew : (0 : α) ≤ (maxNew : α) := Int.cast_nonneg ht.nonneg
    rw [ht.cur, ht.running, ht.total, Int.cast_add, Int.cast_add]
    linarith
  running := by
    rw [ht.running]
    exact h.running

omit [FloorRing α] in
theorem Reserves.takes (h : Reserves s mixed a) {len maxNew : ℤ} (ht : Takes s a b req len maxNew) :
    Reserves s mixed b := by
  have htaken : b.taken s = a.taken s + s.ceilPagedTokens len := by
    unfold Adder.taken
    rw [ht.canRunList, List.map_append, List.sum_append]
    simp
  have hcur := h.cur
  refine ⟨h.toAccounts.takes ht, ?_, ?_⟩
  · rw [ht.cur, htaken, hcur, add_assoc]
  · have hroom := ht.room
    rw [htaken]
    omega

/-- One request keeps the account. -/
theorem Accounts.addOneReq (h : Accounts s a) (hpage : 0 < s.pageSize) (hl : s.treeCache.Lawful)
    (hnew : s.Asks req) (allow : Bool) :
    Accounts s (a.addOneReq s req allow).2 := by
  rcases addOneReq_cases hpage hl hnew h.cur_le allow with ⟨states, heq⟩ | ⟨len, maxNew, ht⟩
  · rw [heq]
    exact ⟨h.total, h.running⟩
  · exact h.takes ht

theorem Reserves.addOneReq (h : Reserves s mixed a) (hpage : 0 < s.pageSize) (hl : s.treeCache.Lawful)
    (hnew : s.Asks req) (allow : Bool) :
    Reserves s mixed (a.addOneReq s req allow).2 := by
  rcases addOneReq_cases hpage hl hnew h.cur_le allow with ⟨states, heq⟩ | ⟨len, maxNew, ht⟩
  · rw [heq]
    exact ⟨⟨h.total, h.running⟩, h.cur, h.fits⟩
  · exact h.takes ht

omit [Field α] [LinearOrder α] [FloorRing α] [IsStrictOrderedRing α] in
theorem room_release (hl : s.treeCache.Lawful) (out : List (Req ν α × ℕ)) (left : ℕ) (pool : τ) :
    s.treeCache.room pool ≤
      s.treeCache.room (out.foldl (fun pool x => s.treeCache.releaseReq x.1.rid (left - x.2) pool) pool) := by
  induction out generalizing pool with
  | nil => exact le_rfl
  | cons x out ih => exact (hl.room_releaseReq x.1.rid (left - x.2) pool).trans (ih _)

omit [FloorRing α] in
/-- So does giving requests up. -/
theorem Accounts.release (h : Accounts s a) (taken : List (Req ν α)) : Accounts s (a.release s taken) where
  total := by
    have hperm := List.filter_append_perm (fun r : Req ν α => taken.any fun x => decide (x.rid = r.rid)) a.running
    have hsum := (hperm.map s.runningOffset).sum_eq
    rw [List.map_append, List.sum_append] at hsum
    have htotal := h.total
    simp only [Adder.release, decide_not, Bool.decide_eq_true] at hsum ⊢
    linarith
  running r hr := h.running r (List.mem_of_mem_filter hr)

omit [FloorRing α] [IsStrictOrderedRing α] in
/-- Preemption gives up requests that run, or does nothing. -/
theorem preemptToSchedule_cases (s : Setup ν τ α) (a : Adder ν τ α) (req : Req ν α) :
    (a.preemptToSchedule s req).2 = a ∨ ∃ taken tokens more, (a.preemptToSchedule s req).2 = a.release s taken ∧
      taken = (Adder.preemptible s more (a.victims s) tokens).1 := by
  unfold Adder.preemptToSchedule
  dsimp only
  split
  · exact .inl rfl
  · exact .inr ⟨_, _, _, rfl, rfl⟩

omit [FloorRing α] in
theorem Accounts.preemptToSchedule (h : Accounts s a) : Accounts s (a.preemptToSchedule s req).2 := by
  rcases preemptToSchedule_cases s a req with heq | ⟨taken, tokens, more, heq, -⟩ <;> rw [heq]
  · exact h
  · exact h.release taken

omit [FloorRing α] in
theorem Reserves.preemptToSchedule (h : Reserves s mixed a) (hl : s.treeCache.Lawful) :
    Reserves s mixed (a.preemptToSchedule s req).2 := by
  refine ⟨h.toAccounts.preemptToSchedule, ?_, ?_⟩
  all_goals rcases preemptToSchedule_cases s a req with heq | ⟨taken, tokens, more, heq, -⟩ <;> rw [heq]
  · exact h.cur
  · exact h.cur
  · exact h.fits
  · exact h.fits.trans (Int.ofNat_le.2 (room_release hl _ _ a.pool))

omit [IsStrictOrderedRing α] in
/-- How much of a chunked request is taken. -/
theorem addChunkedReq_eq {cont : Option (Req ν α)} (h : a.addChunkedReq s req = some (cont, b)) :
    ∃ chunk, a.remChunkTokens = some chunk ∧ ∃ rem, rem = a.chunkRem s chunk ∧
      cont = (if rem < req.extendInputLen then some { req with extendInputLen := rem } else none) ∧
      b = (a.append { req with extendInputLen := min req.extendInputLen rem }).updatePrefillBudget s
        (min req.extendInputLen rem) (if rem < req.extendInputLen then 0 else min req.maxNewTokens s.clipMaxNewTokens) := by
  obtain ⟨chunk, hchunk, heq⟩ := Option.map_eq_some_iff.1 h
  refine ⟨chunk, hchunk, _, rfl, ?_⟩
  obtain ⟨rfl, rfl⟩ := Prod.mk.inj heq
  refine ⟨?_, rfl⟩
  split
  · next hlt => rw [min_eq_right hlt.le]
  · rfl

/-- So does a chunked request. -/
theorem Accounts.addChunkedReq (h : Accounts s a) (hnew : 0 ≤ req.maxNewTokens) {cont : Option (Req ν α)}
    (hadd : a.addChunkedReq s req = some (cont, b)) : Accounts s b := by
  obtain ⟨chunk, -, rem, hrem, -, rfl⟩ := addChunkedReq_eq hadd
  refine ⟨?_, h.running⟩
  have htotal := h.total
  have hclip : (0 : α) ≤ ((if rem < req.extendInputLen then 0 else min req.maxNewTokens s.clipMaxNewTokens : ℤ) : α) := by
    apply Int.cast_nonneg
    split
    · exact le_rfl
    · exact le_min hnew (Int.natCast_nonneg _)
  simp only [Adder.updatePrefillBudget, Adder.append, Int.cast_add]
  linarith

/-- It fits if there is a token left for it. -/
theorem Reserves.addChunkedReq (h : Reserves s mixed a) (hpage : 0 < s.pageSize)
    (hpages : s.pageSize ∣ s.treeCache.room a.pool) (hfirst : a.canRunList = []) (hnew : 0 ≤ req.maxNewTokens)
    (hroom : 1 ≤ a.remTotalTokens s) {cont : Option (Req ν α)} (hadd : a.addChunkedReq s req = some (cont, b)) :
    Reserves s mixed b := by
  have haccounts := h.toAccounts.addChunkedReq hnew hadd
  obtain ⟨chunk, -, rem, hrem, -, rfl⟩ := addChunkedReq_eq hadd
  have hnone : a.taken s = 0 := by
    unfold Adder.taken
    rw [hfirst]
    rfl
  have hcur := h.cur
  have hint : int (a.remTotalTokens s) = ⌊a.remTotalTokens s⌋ := if_pos (zero_le_one.trans hroom)
  have hfloor : int (a.remTotalTokens s) ≤ s.treeCache.room a.pool := by
    have hle : a.remTotalTokens s ≤ s.treeCache.room a.pool := by
      have hpos : (0 : α) ≤ (a.curRemTokenOffset : α) := Int.cast_nonneg (by omega)
      exact sub_le_self _ (hpos.trans h.cur_le)
    rw [hint]
    exact Int.cast_le.1 ((Int.floor_le (a.remTotalTokens s)).trans (hle.trans_eq (Int.cast_natCast _).symm))
  have hlen : min req.extendInputLen rem ≤ s.treeCache.room a.pool := by
    apply (min_le_right _ _).trans
    rw [hrem]
    unfold Adder.chunkRem
    dsimp only
    split
    · next hle =>
      have hone : 1 ≤ int (a.remTotalTokens s) := by
        rw [hint]
        exact Int.le_floor.2 (by simpa using hroom)
      have hchunk : chunk ≤ 0 := (min_le_iff.1 hle).resolve_right (by omega)
      exact hchunk.trans (Int.natCast_nonneg _)
    · exact (min_le_right _ _).trans hfloor
  have htaken : ((a.append { req with extendInputLen := min req.extendInputLen rem }).updatePrefillBudget s
      (min req.extendInputLen rem) (if rem < req.extendInputLen then 0 else min req.maxNewTokens s.clipMaxNewTokens)).taken
        s = a.taken s + s.ceilPagedTokens (min req.extendInputLen rem) := by
    simp [Adder.taken, Adder.append, Adder.updatePrefillBudget]
  refine ⟨haccounts, ?_, ?_⟩
  · rw [htaken, ← add_assoc, ← hcur]
    rfl
  · rw [htaken, hnone, zero_add]
    exact ceilPagedTokens_le hpage hlen (Int.natCast_dvd_natCast.2 hpages)

end Reserves

/-! ## What is cut -/

section Cuts

variable {ν τ α : Type*} [Field α] [LinearOrder α] [FloorRing α] {s : Setup ν τ α} {a b : Adder ν τ α} {req : Req ν α}
  {cont : Option (Req ν α)}

/-- Not all of the tokens that the cache does not have are computed. -/
def Req.Cut (r : Req ν α) : Prop := r.extendInputLen ≠ (r.fillIds : ℤ) - r.prefixIndices

instance (r : Req ν α) : Decidable r.Cut := inferInstanceAs (Decidable (_ ≠ _))

/-- Nothing more can be cut: the chunk is used up, or there is not a token for another request. -/
def Stuck (s : Setup ν τ α) (a : Adder ν τ α) : Prop :=
  (∃ chunk, a.remChunkTokens = some chunk ∧ s.Closed chunk) ∨ a.remTotalTokens s ≤ ((1 + s.pageSize : ℤ) : α)

/-- Of the requests taken only the one is cut that goes on in the next round. -/
structure OneCut (s : Setup ν τ α) (cont : Option (Req ν α)) (a : Adder ν τ α) : Prop where
  cut : a.canRunList.filter (·.Cut) = cont.toList ++ a.newChunkedReq.toList
  one : cont = none ∨ a.newChunkedReq = none
  stuck : cont.isSome ∨ a.newChunkedReq.isSome → Stuck s a

variable [IsStrictOrderedRing α]

theorem OneCut.takes (h : OneCut s cont a) (hpage : 0 < s.pageSize) (hcached : s.treeCache.disable = false)
    (halign : ∀ align ∈ s.truncationAlignSize, s.pageSize ∣ align) (hwhole : ¬ req.Cut) (hsome : 1 ≤ req.extendInputLen)
    {len maxNew : ℤ} (ht : Takes s a b req len maxNew) : OneCut s cont b := by
  have henough : ¬ a.remTotalTokens s ≤ ((1 + s.pageSize : ℤ) : α) := fun hle => by
    have hlt := (ht.enough hcached).trans_le hle
    exact absurd (Int.cast_lt.1 hlt) (by omega)
  have hclosed : Stuck s a → ∃ chunk, a.remChunkTokens = some chunk ∧ s.Closed chunk := fun h => h.resolve_right henough
  rcases ht.whole with ⟨rfl, hnew⟩ | ⟨hlt, hnew, hcut⟩
  · constructor
    · rw [ht.canRunList, List.filter_append, h.cut, hnew]
      simp [hwhole]
    · rw [hnew]
      exact h.one
    · rw [hnew]
      intro hsome'
      obtain ⟨chunk, hchunk, hc⟩ := hclosed (h.stuck hsome')
      refine .inl ⟨chunk - s.ceilPagedTokens req.extendInputLen, by rw [ht.chunk, hchunk]; rfl, hc.mono hpage ?_⟩
      have hceil : req.extendInputLen ≤ s.ceilPagedTokens req.extendInputLen := le_ceilPagedTokens hpage
      omega
  · -- a cut uses the chunk up, so there was none before
    obtain ⟨chunk, hchunk, htrunc⟩ := hcut hcached
    have hfree : ¬ (cont.isSome ∨ a.newChunkedReq.isSome) := fun hsome' => by
      obtain ⟨chunk', hchunk', hc⟩ := hclosed (h.stuck hsome')
      rw [hchunk] at hchunk'
      obtain rfl := Option.some.inj hchunk'
      rw [truncLen_of_closed hc] at htrunc
      cases htrunc
    push Not at hfree
    have hcont : cont = none := by simpa using hfree.1
    have hnone : a.newChunkedReq = none := by simpa using hfree.2
    have hthis : ({ req with extendInputLen := len } : Req ν α).Cut := fun heq =>
      hlt.ne (heq.trans (not_not.1 hwhole).symm)
    refine ⟨?_, .inl hcont, fun _ => .inl ⟨chunk - s.ceilPagedTokens len, by rw [ht.chunk, hchunk]; rfl,
      closed_after_cut hpage halign htrunc⟩⟩
    rw [ht.canRunList, List.filter_append, h.cut, hnew, hcont, hnone]
    simp [hthis]

omit [IsStrictOrderedRing α] [FloorRing α] in
theorem oneCut_adder (pool : τ) (running : List (Req ν α)) (remInput : ℤ) (remChunk : Option ℤ) (mixed : ℕ) :
    OneCut s none (s.adder pool running remInput remChunk mixed) :=
  ⟨rfl, .inl rfl, fun h => h.elim (fun h => nomatch h) fun h => nomatch h⟩

/-- One request keeps it that only one is cut. -/
theorem OneCut.addOneReq (h : OneCut s cont a) (hpage : 0 < s.pageSize) (hl : s.treeCache.Lawful)
    (hcached : s.treeCache.disable = false) (halign : ∀ align ∈ s.truncationAlignSize, s.pageSize ∣ align)
    (hwhole : ¬ req.Cut) (hsome : 1 ≤ req.extendInputLen) (ha : Accounts s a) (allow : Bool) :
    OneCut s cont (a.addOneReq s req allow).2 := by
  rcases addOneReq_cases hpage hl (.of_cached hcached) ha.cur_le allow with ⟨states, heq⟩ | ⟨len, maxNew, ht⟩
  · rw [heq]
    exact ⟨h.cut, h.one, h.stuck⟩
  · exact h.takes hpage hcached halign hwhole hsome ht

omit [IsStrictOrderedRing α] in
/-- It gets the chunk, or the last of the room. -/
theorem chunkRem_cases {chunk rem : ℤ} (h : rem = a.chunkRem s chunk) :
    rem = chunk ∨ 0 < rem ∧ rem = ⌊a.remTotalTokens s⌋ := by
  unfold Adder.chunkRem at h
  dsimp only at h
  split at h
  · exact .inl h
  · next hpos =>
    rcases min_choice chunk (int (a.remTotalTokens s)) with hmin | hmin
    · exact .inl (h.trans hmin)
    · have hlt : 0 < int (a.remTotalTokens s) := by omega
      refine .inr ⟨by omega, (h.trans hmin).trans ?_⟩
      unfold int at hlt ⊢
      split
      · rfl
      · next hneg =>
        rw [if_neg hneg] at hlt
        exact absurd (Int.ceil_le.2 (by simpa using (not_le.1 hneg).le)) (not_le.2 hlt)

/-- A chunked request that is cut again uses the chunk or the room up. -/
theorem oneCut_addChunkedReq (hpage : 0 < s.pageSize) (hfirst : a.canRunList = [])
    (hnone : a.newChunkedReq = none) (hwhole : ¬ req.Cut) (hadd : a.addChunkedReq s req = some (cont, b)) :
    OneCut s cont b := by
  obtain ⟨chunk, hchunk, rem, hrem, rfl, rfl⟩ := addChunkedReq_eq hadd
  by_cases hlt : rem < req.extendInputLen
  · have hcut : ({ req with extendInputLen := rem } : Req ν α).Cut := fun heq =>
      hlt.ne (heq.trans (not_not.1 hwhole).symm)
    rw [if_pos hlt, if_pos hlt, min_eq_right hlt.le]
    refine ⟨?_, .inr hnone, fun _ => ?_⟩
    · show (a.canRunList ++ [_]).filter _ = _ ++ a.newChunkedReq.toList
      rw [hfirst, hnone]
      simp [hcut]
    · have hceil : rem ≤ s.ceilPagedTokens rem := le_ceilPagedTokens hpage
      rcases chunkRem_cases hrem with rfl | ⟨hpos, hfloor⟩
      · refine .inl ⟨rem - s.ceilPagedTokens rem, congrArg (Option.map _) hchunk, .inl ?_⟩
        exact (floorPaged_le hpage _).trans (by omega)
      · refine .inr ?_
        have hlast : a.remTotalTokens s < rem + 1 := by
          rw [hfloor]
          exact Int.lt_floor_add_one _
        have hceil : (rem : α) ≤ (s.ceilPagedTokens rem : α) := Int.cast_le.2 hceil
        have hpage : (0 : α) ≤ (s.pageSize : α) := Nat.cast_nonneg _
        unfold Adder.remTotalTokens at hlast
        show (s.treeCache.room a.pool : α) - (a.remTotalTokenOffset + ((s.ceilPagedTokens rem + 0 : ℤ) : α)) ≤ _
        push_cast
        linarith
  · have hsame : min req.extendInputLen rem = req.extendInputLen := min_eq_left (not_lt.1 hlt)
    rw [if_neg hlt, if_neg hlt, hsame]
    refine ⟨?_, .inl rfl, fun hsome => ?_⟩
    · show (a.canRunList ++ [req]).filter _ = _ ++ a.newChunkedReq.toList
      rw [hfirst, hnone]
      simp [hwhole]
    · have hnew : a.newChunkedReq.isSome := hsome.resolve_left fun h => nomatch h
      rw [hnone] at hnew
      cases hnew

end Cuts

end ExpertServe.Prefill
