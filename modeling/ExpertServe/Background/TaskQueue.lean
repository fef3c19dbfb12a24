import Mathlib.Data.Fintype.Card
import Mathlib.Data.List.Chain
import ExpertServe.Lib.Run

/-!
# The task queue of the CPU expert backend

`TaskQueue` is a linked list that any number of threads push to and one worker drains. With the `queue` option its
nodes come from a pool of 256 and go back to it. Every atomic operation, and every critical section, is one step.

* `TaskQueue.step`: one step of a producer inside `enqueue` or `enqueue_raw`, or one step of `worker`;
* `TaskQueue.Inv`: what every step keeps, `inv_step` the step lemma;
* `taskQueue_safe`: tasks run in the order in which `tail.exchange` saw them, each once, no node is handed out while
  the list can still reach it, and `pending` counts what has been asked for and is not over;
* `taskQueue_destroyed`: the destructor's walk deletes every node that `new` made, once, and no node of the pool.
-/

namespace ExpertServe

open Lib

/-- `TaskQueue::Node`: the job is in one of two fields. -/
structure Node (F R : Type*) where
  task : Option F
  rawTask : Option R
  next : Option ℕ

/-- What the worker calls when it comes to the node: `raw_task` if there is one, else `task`. -/
def Node.jobs {F R : Type*} (n : Node F R) : List (F ⊕ R) :=
  match n.rawTask, n.task with
  | some r, _ => [.inr r]
  | none, some f => [.inl f]
  | none, none => []

/-- A node that `acquire_node` returned, after `enqueue` or `enqueue_raw` has put its job in. -/
def Node.holding {F R : Type*} : F ⊕ R → Node F R
  | .inl f => ⟨some f, none, none⟩
  | .inr r => ⟨none, some r, none⟩

/-- A node without a job. -/
def Node.blank {F R : Type*} : Node F R := ⟨none, none, none⟩

/-- Where a producer is: outside, before `pending.fetch_add`, before `tail.exchange`, or before the store to
`prev->next`. -/
inductive ProducerAt where
  | idle
  | acquired (node : ℕ)
  | counted (node : ℕ)
  | exchanged (node prev : ℕ)
  deriving DecidableEq

/-- Whether its `pending.fetch_add` has happened and its exchange has not. -/
def ProducerAt.isCounted : ProducerAt → Bool
  | counted _ => true
  | _ => false

/-- Where the worker is: before it loads `curr->next`, after it has run that node's job, after `release_node(curr)`,
before `pending.fetch_sub`, or out of its loop. -/
inductive WorkerAt where
  | looking
  | ran (next : ℕ)
  | released (next : ℕ)
  | moved
  | exited

namespace WorkerAt

/-- The nodes of the chain whose jobs have not been run. -/
def unrun : WorkerAt → List ℕ → List ℕ
  | ran _, chain => chain.tail.tail
  | _, chain => chain.tail

/-- One for a job that has been run and whose `pending` is still to be taken back. -/
def running : WorkerAt → ℕ
  | ran _ | released _ | moved => 1
  | looking | exited => 0

/-- Where the chain starts. -/
def Starts : WorkerAt → ℕ → List ℕ → Prop
  | ran n, head, chain => ∃ rest, chain = head :: n :: rest
  | released n, _, chain => chain.head? = some n
  | looking, head, chain | moved, head, chain | exited, head, chain => chain.head? = some head

theorem mem_of_unrun {w : WorkerAt} {chain : List ℕ} {n : ℕ} (hn : n ∈ w.unrun chain) : n ∈ chain := by
  cases w with
  | ran m => exact List.mem_of_mem_tail (List.mem_of_mem_tail hn)
  | _ => exact List.mem_of_mem_tail hn

theorem Starts.append {w : WorkerAt} {head : ℕ} {chain : List ℕ} (h : w.Starts head chain) (hne : chain ≠ [])
    (l : List ℕ) : w.Starts head (chain ++ l) := by
  cases w with
  | ran n =>
    obtain ⟨rest, hrest⟩ := h
    exact ⟨rest ++ l, by simp [hrest]⟩
  | _ => simpa [Starts, List.head?_append_of_ne_nil _ hne] using h

theorem Starts.unrun_append {w : WorkerAt} {head : ℕ} {chain : List ℕ} (h : w.Starts head chain) (hne : chain ≠ [])
    (l : List ℕ) : w.unrun (chain ++ l) = w.unrun chain ++ l := by
  cases w with
  | ran n =>
    obtain ⟨rest, rfl⟩ := h
    simp [unrun]
  | _ => exact List.tail_append_of_ne_nil hne

end WorkerAt

/-- The queue. Nodes are addresses; `pool` are those of the node pool, `heap` those `new` has made and `delete` has
not taken back. `head` is also the worker's `curr`. The last five fields are history: the nodes from `curr` on in
the order of their exchange, the node that came after each, the jobs in that order, those the worker has run, and how
often it has decremented `pending`. -/
structure TaskQueue (P F R : Type*) where
  node : ℕ → Node F R
  pool : Finset ℕ
  freeNodes : List ℕ
  heap : Finset ℕ
  head : ℕ
  tail : ℕ
  pending : ℕ
  done : Bool
  producer : P → ProducerAt
  worker : WorkerAt
  chain : List ℕ
  after : ℕ → Option ℕ
  pushed : List (F ⊕ R)
  executed : List (F ⊕ R)
  finished : ℕ

/-- One step. `acquire` is `acquire_node` and the store of the job; `fresh` is the address `new` returns if it is
called. -/
inductive TaskQueueStep (P F R : Type*) where
  | acquire (p : P) (job : F ⊕ R) (fresh : ℕ)
  | count (p : P)
  | exchange (p : P)
  | link (p : P)
  | look
  | release
  | move
  | uncount
  | stop

/-- `kNodePoolSize`. -/
def nodePoolSize : ℕ := 256

namespace TaskQueue

variable {P F R : Type*}

/-- The node pool, an array at `base`. -/
def bootNodes (queueOpt : Bool) (base : ℕ) : List ℕ :=
  if queueOpt then (List.range nodePoolSize).map (base + ·) else []

/-- The constructor. The dummy is the last node of the pool, or a new one. -/
def init (queueOpt : Bool) (base fresh : ℕ) : TaskQueue P F R :=
  let nodes := bootNodes queueOpt base
  let dummy := nodes.getLast?.getD fresh
  { node := fun _ => .blank
    pool := nodes.toFinset
    freeNodes := nodes.dropLast
    heap := if nodes = [] then {fresh} else ∅
    head := dummy
    tail := dummy
    pending := 0
    done := false
    producer := fun _ => .idle
    worker := .looking
    chain := [dummy]
    after := fun _ => none
    pushed := []
    executed := []
    finished := 0 }

variable [DecidableEq P]

/-- A wiped node goes to a producer, with its job. -/
def handOut (s : TaskQueue P F R) (p : P) (job : F ⊕ R) (n : ℕ) : TaskQueue P F R :=
  { s with node := Function.update s.node n (.holding job)
           after := Function.update s.after n none
           producer := Function.update s.producer p (.acquired n) }

/-- `acquire_node`, then the job. `new` never returns an address that is in use. -/
def acquire (s : TaskQueue P F R) (p : P) (job : F ⊕ R) (fresh : ℕ) : TaskQueue P F R :=
  match s.producer p with
  | .idle =>
    match s.freeNodes.getLast? with
    | none => if fresh ∈ s.heap ∪ s.pool then s else handOut { s with heap := insert fresh s.heap } p job fresh
    | some n => handOut { s with freeNodes := s.freeNodes.dropLast } p job n
  | _ => s

/-- `pending.fetch_add(1)`. -/
def count (s : TaskQueue P F R) (p : P) : TaskQueue P F R :=
  match s.producer p with
  | .acquired n => { s with pending := s.pending + 1, producer := Function.update s.producer p (.counted n) }
  | _ => s

/-- A node takes the place of `tail`, which its producer keeps as `prev`. -/
def publish (s : TaskQueue P F R) (p : P) (n : ℕ) : TaskQueue P F R :=
  { s with tail := n
           producer := Function.update s.producer p (.exchanged n s.tail)
           chain := s.chain ++ [n]
           after := Function.update s.after s.tail (some n)
           pushed := s.pushed ++ (s.node n).jobs }

/-- `tail.exchange(node)`. -/
def exchange (s : TaskQueue P F R) (p : P) : TaskQueue P F R :=
  match s.producer p with
  | .counted n => s.publish p n
  | _ => s

/-- A published node becomes reachable. -/
def attach (s : TaskQueue P F R) (p : P) (n prev : ℕ) : TaskQueue P F R :=
  { s with node := Function.update s.node prev { s.node prev with next := some n }
           producer := Function.update s.producer p .idle }

/-- `prev->next.store(node)`. -/
def link (s : TaskQueue P F R) (p : P) : TaskQueue P F R :=
  match s.producer p with
  | .exchanged n prev => s.attach p n prev
  | _ => s

/-- The head of the worker's loop: unless it is done, it loads `curr->next` and runs that node's job. -/
def look (s : TaskQueue P F R) : TaskQueue P F R :=
  match s.worker with
  | .looking =>
    if s.done then { s with worker := .exited }
    else match (s.node s.head).next with
      | none => s
      | some n => { s with worker := .ran n, executed := s.executed ++ (s.node n).jobs }
  | _ => s

/-- `release_node(curr)`: the node is wiped, then given back to the pool it came from or deleted. -/
def releaseNode (s : TaskQueue P F R) (n : ℕ) : TaskQueue P F R :=
  { s with node := Function.update s.node s.head .blank
           freeNodes := if s.head ∈ s.pool then s.freeNodes ++ [s.head] else s.freeNodes
           heap := if s.head ∈ s.pool then s.heap else s.heap.erase s.head
           worker := .released n
           chain := s.chain.tail }

/-- The worker is through with the job. -/
def release (s : TaskQueue P F R) : TaskQueue P F R :=
  match s.worker with
  | .ran n => s.releaseNode n
  | _ => s

/-- `curr = next; head.store(curr)`. -/
def move (s : TaskQueue P F R) : TaskQueue P F R :=
  match s.worker with
  | .released n => { s with head := n, worker := .moved }
  | _ => s

/-- `pending.fetch_sub(1)`. -/
def uncount (s : TaskQueue P F R) : TaskQueue P F R :=
  match s.worker with
  | .moved => { s with pending := s.pending - 1, worker := .looking, finished := s.finished + 1 }
  | _ => s

def step (s : TaskQueue P F R) : TaskQueueStep P F R → TaskQueue P F R
  | .acquire p job fresh => s.acquire p job fresh
  | .count p => s.count p
  | .exchange p => s.exchange p
  | .link p => s.link p
  | .look => s.look
  | .release => s.release
  | .move => s.move
  | .uncount => s.uncount
  | .stop => { s with done := true }

/-- The destructor's loop, once the worker has been joined: the nodes it comes to from `node`, in at most `fuel`
rounds. -/
def walk (s : TaskQueue P F R) : ℕ → Option ℕ → List ℕ
  | _, none => []
  | 0, some _ => []
  | fuel + 1, some n => n :: s.walk fuel (s.node n).next

/-- The nodes it deletes. -/
def destroyed (s : TaskQueue P F R) (fuel : ℕ) : List ℕ := (s.walk fuel (some s.head)).filter (· ∉ s.pool)

/-! ## The invariant -/

/-- The node a producer has in hand and has not published. -/
def Owns (s : TaskQueue P F R) (p : P) (n : ℕ) : Prop := s.producer p = .acquired n ∨ s.producer p = .counted n

variable [Fintype P]

/-- The producers between the two. -/
def counting (s : TaskQueue P F R) : Finset P := Finset.univ.filter fun p => (s.producer p).isCounted

/-- What every step keeps. Nodes in the chain, in the pool's free list and in the producers' hands are apart. A node
of the chain either has its successor in `next`, or that successor's producer has still to store it. -/
structure Inv (s : TaskQueue P F R) : Prop where
  nodup : s.chain.Nodup
  free_nodup : s.freeNodes.Nodup
  free_apart : ∀ n ∈ s.freeNodes, n ∈ s.pool ∧ n ∉ s.chain
  owned : ∀ p n, s.Owns p n → n ∉ s.chain ∧ n ∉ s.freeNodes ∧ (s.node n).next = none ∧ s.after n = none ∧
    (s.node n).jobs.length = 1
  owner : ∀ p q n, s.Owns p n → s.Owns q n → p = q
  between : ∀ p n a, s.producer p = .exchanged n a → a ∈ s.chain ∧ s.after a = some n ∧ (s.node a).next = none
  storer : ∀ p q n a, s.producer p = .exchanged n a → s.producer q = .exchanged n a → p = q
  linked : s.chain.IsChain fun a b => s.after a = some b
  last : s.chain.getLast? = some s.tail
  after_tail : s.after s.tail = none
  next_after : ∀ a ∈ s.chain, ∀ b, (s.node a).next = some b → s.after a = some b
  unlinked : ∀ a ∈ s.chain, ∀ b, s.after a = some b → (s.node a).next = none → ∃ p, s.producer p = .exchanged b a
  starts : s.worker.Starts s.head s.chain
  ran_next : ∀ n, s.worker = .ran n → (s.node s.head).next = some n
  one : ∀ n ∈ s.chain.tail, (s.node n).jobs.length = 1
  order : s.pushed = s.executed ++ (s.worker.unrun s.chain).flatMap fun n => (s.node n).jobs
  allocated : ∀ n, n ∈ s.heap ∪ s.pool ↔ n ∈ s.chain ∨ n ∈ s.freeNodes ∨ ∃ p, s.Owns p n
  heap_pool : Disjoint s.heap s.pool
  count_pending : s.pending + s.finished = s.pushed.length + s.counting.card
  count_executed : s.executed.length = s.finished + s.worker.running

section Moves

variable {s s' : TaskQueue P F R} {p q : P} {x : ProducerAt} {n a : ℕ}

omit [DecidableEq P] [Fintype P]

@[simp] theorem jobs_holding (job : F ⊕ R) : (Node.holding job).jobs = [job] := by
  cases job <;> rfl

@[simp] theorem next_holding (job : F ⊕ R) : (Node.holding job).next = none := by
  cases job <;> rfl

variable [DecidableEq P]

@[simp] theorem handOut_node (job : F ⊕ R) :
    (s.handOut p job n).node = Function.update s.node n (.holding job) := rfl

@[simp] theorem handOut_after (job : F ⊕ R) : (s.handOut p job n).after = Function.update s.after n none := rfl

@[simp] theorem handOut_tail (job : F ⊕ R) : (s.handOut p job n).tail = s.tail := rfl

@[simp] theorem handOut_head (job : F ⊕ R) : (s.handOut p job n).head = s.head := rfl

@[simp] theorem publish_producer : (s.publish p n).producer = Function.update s.producer p (.exchanged n s.tail) := rfl

@[simp] theorem publish_after : (s.publish p n).after = Function.update s.after s.tail (some n) := rfl

@[simp] theorem publish_chain : (s.publish p n).chain = s.chain ++ [n] := rfl

@[simp] theorem publish_tail : (s.publish p n).tail = n := rfl

@[simp] theorem attach_node :
    (s.attach p n a).node = Function.update s.node a { s.node a with next := some n } := rfl

@[simp] theorem attach_jobs (m : ℕ) : ((s.attach p n a).node m).jobs = (s.node m).jobs := by
  rw [attach_node, Function.update_apply]
  split
  · next hm => rw [hm]; rfl
  · rfl

theorem owns_update (h : s'.producer = Function.update s.producer p x) :
    s'.Owns q n ↔ if q = p then x = .acquired n ∨ x = .counted n else s.Owns q n := by
  unfold Owns
  rw [h, Function.update_apply]
  by_cases hq : q = p <;> simp [hq]

theorem exchanged_update (h : s'.producer = Function.update s.producer p x) :
    s'.producer q = .exchanged n a ↔ if q = p then x = .exchanged n a else s.producer q = .exchanged n a := by
  rw [h, Function.update_apply]
  by_cases hq : q = p <;> simp [hq]

variable [Fintype P]

theorem counting_update (h : s'.producer = Function.update s.producer p x) :
    s'.counting = if x.isCounted then insert p s.counting else s.counting.erase p := by
  apply Finset.ext
  intro q
  by_cases hq : q = p
  · subst hq
    cases hx : x.isCounted <;> simp [counting, h, hx]
  · cases x.isCounted <;> simp [counting, h, hq]

omit [DecidableEq P] in
theorem mem_counting : p ∈ s.counting ↔ (s.producer p).isCounted := by
  simp [counting]

end Moves

section Steps

variable {s : TaskQueue P F R}

section

omit [DecidableEq P]

theorem Inv.tail_mem (h : Inv s) : s.tail ∈ s.chain := List.mem_of_getLast? h.last

theorem Inv.chain_ne_nil (h : Inv s) : s.chain ≠ [] := List.ne_nil_of_mem h.tail_mem

theorem Inv.head_mem (h : Inv s) {n : ℕ} (hw : s.worker = .ran n) : s.head ∈ s.chain := by
  have hstarts := h.starts
  rw [hw] at hstarts
  obtain ⟨rest, hrest⟩ := hstarts
  simp [hrest]

theorem Inv.next_tail (h : Inv s) : (s.node s.tail).next = none := by
  cases hnext : (s.node s.tail).next with
  | none => rfl
  | some b => simpa [h.after_tail] using h.next_after s.tail h.tail_mem b hnext

/-- A node with a successor is not the tail. -/
theorem Inv.ne_tail (h : Inv s) {a b : ℕ} (ha : s.after a = some b) : a ≠ s.tail := by
  rintro rfl
  simp [h.after_tail] at ha

/-- The worker's next node is the second of the chain. -/
theorem Inv.chain_of_next (h : Inv s) {n : ℕ} (hhead : s.chain.head? = some s.head)
    (hnext : (s.node s.head).next = some n) : ∃ rest, s.chain = s.head :: n :: rest := by
  obtain ⟨t, ht⟩ := List.head?_eq_some_iff.1 hhead
  have hafter : s.after s.head = some n := h.next_after s.head (by simp [ht]) n hnext
  cases t with
  | nil =>
    have hlast := h.last
    rw [ht] at hlast
    exact absurd (Option.some.inj hlast) (h.ne_tail hafter)
  | cons b rest =>
    have hlinked := h.linked
    rw [ht, List.isChain_cons_cons, hafter] at hlinked
    exact ⟨rest, by rw [ht, Option.some.inj hlinked.1]⟩

end

/-- A node that is nowhere goes to an idle producer, with its job. -/
theorem Inv.handOut (h : Inv s) {p : P} (hp : s.producer p = .idle) (job : F ⊕ R) {n : ℕ} (free : List ℕ)
    (heap : Finset ℕ) (hchain : n ∉ s.chain) (howned : ∀ q, ¬ s.Owns q n) (hnodup : free.Nodup)
    (hfree : ∀ m ∈ free, m ∈ s.freeNodes) (hn : n ∉ free) (hheap : Disjoint heap s.pool)
    (halloc : ∀ m, m ∈ heap ∪ s.pool ↔ m = n ∨ m ∈ s.chain ∨ m ∈ free ∨ ∃ q, s.Owns q m) :
    Inv ({ s with freeNodes := free, heap := heap }.handOut p job n) := by
  have hne : ∀ {m}, m ∈ s.chain → m ≠ n := fun hm hmn => hchain (hmn ▸ hm)
  have hidle : ∀ m, ¬ s.Owns p m := fun m hm => by simp [Owns, hp] at hm
  have howns : ∀ q m, ({ s with freeNodes := free, heap := heap }.handOut p job n).Owns q m ↔
      (q = p ∧ m = n) ∨ s.Owns q m := by
    intro q m
    rw [owns_update (s := s) rfl]
    split
    · next hq =>
      subst hq
      simp [hidle, eq_comm]
    · next hq => simp [hq]
  have hexch : ∀ q m a, ({ s with freeNodes := free, heap := heap }.handOut p job n).producer q = .exchanged m a ↔
      s.producer q = .exchanged m a := by
    intro q m a
    rw [exchanged_update (s := s) rfl]
    split
    · next hq => simp [hq, hp]
    · rfl
  refine { h with
    free_nodup := hnodup, heap_pool := hheap, free_apart := ?_, owned := ?_, owner := ?_, between := ?_, storer := ?_,
    linked := ?_, after_tail := ?_, next_after := ?_, unlinked := ?_, ran_next := ?_, one := ?_, order := ?_,
    allocated := ?_, count_pending := ?_ }
  · exact fun m hm => h.free_apart m (hfree m hm)
  · intro q m hq
    rcases (howns q m).1 hq with ⟨-, rfl⟩ | hq
    · exact ⟨hchain, hn, by simp, by simp, by simp⟩
    · obtain ⟨h₁, h₂, h₃, h₄, h₅⟩ := h.owned q m hq
      have hmn : m ≠ n := fun hmn => howned q (hmn ▸ hq)
      exact ⟨h₁, fun hm => h₂ (hfree m hm), by simpa [hmn] using h₃, by simpa [hmn] using h₄, by simpa [hmn] using h₅⟩
  · intro q q' m hq hq'
    rcases (howns q m).1 hq with ⟨hqp, hm⟩ | hq₁ <;> rcases (howns q' m).1 hq' with ⟨hqp', hm'⟩ | hq₂
    · exact hqp.trans hqp'.symm
    · exact absurd (hm ▸ hq₂) (howned q')
    · exact absurd (hm' ▸ hq₁) (howned q)
    · exact h.owner q q' m hq₁ hq₂
  · intro q m a hq
    obtain ⟨h₁, h₂, h₃⟩ := h.between q m a ((hexch q m a).1 hq)
    exact ⟨h₁, by simpa [hne h₁] using h₂, by simpa [hne h₁] using h₃⟩
  · exact fun q q' m a hq hq' => h.storer q q' m a ((hexch q m a).1 hq) ((hexch q' m a).1 hq')
  · exact h.linked.imp_of_mem_imp fun a b ha _ hab => by simpa [hne ha] using hab
  · simpa [hne h.tail_mem] using h.after_tail
  · intro a ha b hb
    simpa [hne ha] using h.next_after a ha b (by simpa [hne ha] using hb)
  · intro a ha b hb hnext
    obtain ⟨q, hq⟩ := h.unlinked a ha b (by simpa [hne ha] using hb) (by simpa [hne ha] using hnext)
    exact ⟨q, (hexch q b a).2 hq⟩
  · intro m hm
    have hhead : s.head ∈ s.chain := h.head_mem hm
    simpa [hne hhead] using h.ran_next m hm
  · intro m hm
    simpa [hne (List.mem_of_mem_tail hm)] using h.one m hm
  · refine h.order.trans (congrArg _ (List.flatMap_congr fun m hm => ?_))
    simp [hne (WorkerAt.mem_of_unrun hm)]
  · intro m
    simp only [howns]
    refine (halloc m).trans ?_
    constructor
    · rintro (rfl | hm | hm | ⟨q, hq⟩)
      · exact .inr (.inr ⟨p, .inl ⟨rfl, rfl⟩⟩)
      · exact .inl hm
      · exact .inr (.inl hm)
      · exact .inr (.inr ⟨q, .inr hq⟩)
    · rintro (hm | hm | ⟨q, ⟨-, rfl⟩ | hq⟩)
      · exact .inr (.inl hm)
      · exact .inr (.inr (.inl hm))
      · exact .inl rfl
      · exact .inr (.inr (.inr ⟨q, hq⟩))
  · have hcount : p ∉ s.counting := by simp [mem_counting, hp, ProducerAt.isCounted]
    rw [counting_update (s := s) rfl, if_neg (by simp [ProducerAt.isCounted]), Finset.erase_eq_of_notMem hcount]
    exact h.count_pending

theorem Inv.acquire (h : Inv s) (p : P) (job : F ⊕ R) (fresh : ℕ) : Inv (s.acquire p job fresh) := by
  unfold TaskQueue.acquire
  split
  · next hp =>
    split
    · next hn =>
      split
      · exact h
      · next hfresh =>
        have hnone : ¬ (fresh ∈ s.chain ∨ fresh ∈ s.freeNodes ∨ ∃ q, s.Owns q fresh) := fun hf =>
          hfresh ((h.allocated fresh).2 hf)
        push Not at hnone
        apply h.handOut hp job s.freeNodes (insert fresh s.heap) hnone.1 hnone.2.2 h.free_nodup
        · exact fun m hm => hm
        · exact hnone.2.1
        · rw [Finset.disjoint_insert_left]
          exact ⟨fun hf => hfresh (Finset.mem_union_right _ hf), h.heap_pool⟩
        · intro m
          rw [Finset.insert_union, Finset.mem_insert, h.allocated m]
    · next n hn =>
      have hfree : s.freeNodes = s.freeNodes.dropLast ++ [n] := (List.dropLast_append_getLast? n hn).symm
      have hmem : ∀ m, m ∈ s.freeNodes ↔ m ∈ s.freeNodes.dropLast ∨ m = n := by
        intro m
        rw [hfree, List.mem_append, List.mem_singleton, List.dropLast_concat]
      have hnodup := h.free_nodup
      rw [hfree, List.nodup_append] at hnodup
      apply h.handOut hp job s.freeNodes.dropLast s.heap (h.free_apart n ((hmem n).2 (.inr rfl))).2
      · exact fun q hq => (h.owned q n hq).2.1 ((hmem n).2 (.inr rfl))
      · exact hnodup.1
      · exact fun m hm => List.mem_of_mem_dropLast hm
      · exact fun hn => hnodup.2.2 n hn n (List.mem_singleton_self n) rfl
      · exact h.heap_pool
      · intro m
        rw [h.allocated m, hmem m]
        grind
  · exact h

theorem Inv.count (h : Inv s) (p : P) : Inv (s.count p) := by
  unfold TaskQueue.count
  split
  · next n hp =>
    have howns : ∀ q m, Owns { s with pending := s.pending + 1
                                      producer := Function.update s.producer p (.counted n) } q m ↔ s.Owns q m := by
      intro q m
      rw [owns_update (s := s) rfl]
      split
      · next hq => simp [Owns, hq, hp]
      · rfl
    have hexch : ∀ q m a, Function.update s.producer p (.counted n) q = .exchanged m a ↔
        s.producer q = .exchanged m a := by
      intro q m a
      rw [Function.update_apply]
      split
      · next hq => simp [hq, hp]
      · rfl
    have hcount : p ∉ s.counting := by simp [mem_counting, hp, ProducerAt.isCounted]
    exact { h with
      owned := fun q m hq => h.owned q m ((howns q m).1 hq)
      owner := fun q q' m hq hq' => h.owner q q' m ((howns q m).1 hq) ((howns q' m).1 hq')
      between := fun q m a hq => h.between q m a ((hexch q m a).1 hq)
      storer := fun q q' m a hq hq' => h.storer q q' m a ((hexch q m a).1 hq) ((hexch q' m a).1 hq')
      unlinked := fun a ha b hb hn => (h.unlinked a ha b hb hn).imp fun q hq => (hexch q b a).2 hq
      allocated := fun m => by simpa only [howns] using h.allocated m
      count_pending := by
        have hpending := h.count_pending
        rw [counting_update (s := s) rfl, if_pos (by rfl), Finset.card_insert_of_notMem hcount]
        simp only
        omega }
  · exact h

theorem Inv.exchange (h : Inv s) (p : P) : Inv (s.exchange p) := by
  unfold TaskQueue.exchange
  split
  · next n hp =>
    obtain ⟨hchain, hfree, hnext, hafter, hone⟩ := h.owned p n (.inr hp)
    have hntail : n ≠ s.tail := fun hn => hchain (hn ▸ h.tail_mem)
    have hcons : (s.chain ++ [n]).tail = s.chain.tail ++ [n] := List.tail_append_of_ne_nil h.chain_ne_nil
    have howns : ∀ q m, (s.publish p n).Owns q m ↔ q ≠ p ∧ s.Owns q m := by
      intro q m
      rw [owns_update (s := s) rfl]
      split
      · next hq => simp [hq]
      · next hq => simp [hq]
    refine { h with
      nodup := ?_, free_apart := ?_, owned := ?_, owner := ?_, between := ?_, storer := ?_, linked := ?_, last := ?_,
      after_tail := ?_, next_after := ?_, unlinked := ?_, starts := ?_, one := ?_, order := ?_, allocated := ?_,
      count_pending := ?_ }
    · rw [publish_chain, List.nodup_append]
      exact ⟨h.nodup, List.nodup_singleton n, fun a ha b hb hab => hchain (List.mem_singleton.1 hb ▸ hab ▸ ha)⟩
    · intro m hm
      obtain ⟨hpool, hmchain⟩ := h.free_apart m hm
      refine ⟨hpool, fun hmem => ?_⟩
      rcases List.mem_append.1 hmem with hmem | hmem
      · exact hmchain hmem
      · exact hfree (List.mem_singleton.1 hmem ▸ hm)
    · intro q m hq
      obtain ⟨hqp, hqm⟩ := (howns q m).1 hq
      obtain ⟨h₁, h₂, h₃, h₄, h₅⟩ := h.owned q m hqm
      have hmn : m ≠ n := fun hmn => hqp (h.owner q p m hqm (hmn ▸ .inr hp))
      have hmtail : m ≠ s.tail := fun hm => h₁ (hm ▸ h.tail_mem)
      refine ⟨fun hmem => ?_, h₂, h₃, by simpa [hmtail] using h₄, h₅⟩
      rcases List.mem_append.1 hmem with hmem | hmem
      · exact h₁ hmem
      · exact hmn (List.mem_singleton.1 hmem)
    · exact fun q q' m hq hq' => h.owner q q' m ((howns q m).1 hq).2 ((howns q' m).1 hq').2
    · intro q m a hq
      rw [exchanged_update (s := s) rfl] at hq
      split at hq
      · injection hq with hm ha
        subst hm ha
        exact ⟨List.mem_append_left _ h.tail_mem, by simp, h.next_tail⟩
      · obtain ⟨h₁, h₂, h₃⟩ := h.between q m a hq
        exact ⟨List.mem_append_left _ h₁, by simpa [h.ne_tail h₂] using h₂, h₃⟩
    · intro q q' m a hq hq'
      have hapart : ∀ r, s.producer r = .exchanged m a → ¬ ProducerAt.exchanged n s.tail = .exchanged m a := by
        intro r hr he
        injection he with hm ha
        exact h.ne_tail (h.between r m a hr).2.1 ha.symm
      rw [exchanged_update (s := s) rfl] at hq hq'
      split at hq <;> split at hq'
      · next hqp hqp' => exact hqp.trans hqp'.symm
      · exact absurd hq (hapart q' hq')
      · exact absurd hq' (hapart q hq)
      · exact h.storer q q' m a hq hq'
    · rw [publish_chain, List.isChain_append]
      refine ⟨?_, List.isChain_singleton n, ?_⟩
      · exact h.linked.imp fun a b hab => by simpa [h.ne_tail hab] using hab
      · intro a ha b hb
        rw [h.last] at ha
        cases ha
        cases hb
        simp
    · simp
    · simpa [hntail] using hafter
    · intro a ha b hb
      rcases List.mem_append.1 ha with ha | ha
      · have hab := h.next_after a ha b hb
        simpa [h.ne_tail hab] using hab
      · obtain rfl := List.mem_singleton.1 ha
        exact absurd (hnext.symm.trans hb) (by simp)
    · intro a ha b hb hnone
      by_cases hatail : a = s.tail
      · subst hatail
        rw [publish_after, Function.update_self] at hb
        cases hb
        exact ⟨p, Function.update_self ..⟩
      · rw [publish_after, Function.update_of_ne hatail] at hb
        rcases List.mem_append.1 ha with ha | ha
        · obtain ⟨q, hq⟩ := h.unlinked a ha b hb hnone
          have hqp : q ≠ p := by
            rintro rfl
            simp [hp] at hq
          exact ⟨q, by simpa [hqp] using hq⟩
        · rw [List.mem_singleton.1 ha, hafter] at hb
          cases hb
    · exact h.starts.append h.chain_ne_nil [n]
    · intro m hm
      rw [publish_chain, hcons] at hm
      rcases List.mem_append.1 hm with hm | hm
      · exact h.one m hm
      · rwa [List.mem_singleton.1 hm]
    · show s.pushed ++ (s.node n).jobs =
        s.executed ++ (s.worker.unrun (s.chain ++ [n])).flatMap fun n => (s.node n).jobs
      rw [h.starts.unrun_append h.chain_ne_nil, List.flatMap_append, List.flatMap_singleton, ← List.append_assoc]
      exact congrArg (· ++ _) h.order
    · intro m
      simp only [howns, publish_chain, List.mem_append, List.mem_singleton]
      refine (h.allocated m).trans ?_
      constructor
      · rintro (hm | hm | ⟨q, hq⟩)
        · exact .inl (.inl hm)
        · exact .inr (.inl hm)
        · by_cases hqp : q = p
          · subst hqp
            rcases hq with hq | hq
            · simp [hp] at hq
            · rw [hp] at hq
              cases hq
              exact .inl (.inr rfl)
          · exact .inr (.inr ⟨q, hqp, hq⟩)
      · rintro ((hm | rfl) | hm | ⟨q, -, hq⟩)
        · exact .inl hm
        · exact .inr (.inr ⟨p, .inr hp⟩)
        · exact .inr (.inl hm)
        · exact .inr (.inr ⟨q, hq⟩)
    · have hcount : p ∈ s.counting := by simp [mem_counting, hp, ProducerAt.isCounted]
      have hpos : 0 < s.counting.card := Finset.card_pos.2 ⟨p, hcount⟩
      have hpending := h.count_pending
      rw [counting_update (s := s) rfl, if_neg (by simp [ProducerAt.isCounted]), Finset.card_erase_of_mem hcount]
      show s.pending + s.finished = (s.pushed ++ (s.node n).jobs).length + (s.counting.card - 1)
      rw [List.length_append, hone]
      omega
  · exact h

theorem Inv.link (h : Inv s) (p : P) : Inv (s.link p) := by
  unfold TaskQueue.link
  split
  · next n prev hp =>
    obtain ⟨hprev, hafter, hnone⟩ := h.between p n prev hp
    have howns : ∀ q m, (s.attach p n prev).Owns q m ↔ s.Owns q m := by
      intro q m
      rw [owns_update (s := s) rfl]
      split
      · next hq => simp [Owns, hq, hp]
      · rfl
    have hexch : ∀ q m a, (s.attach p n prev).producer q = .exchanged m a ↔ q ≠ p ∧ s.producer q = .exchanged m a := by
      intro q m a
      rw [exchanged_update (s := s) rfl]
      split
      · next hq => simp [hq]
      · next hq => simp [hq]
    have hnext : ∀ {m}, m ≠ prev → ((s.attach p n prev).node m).next = (s.node m).next := fun hm => by simp [hm]
    refine { h with
      owned := ?_, owner := ?_, between := ?_, storer := ?_, next_after := ?_, unlinked := ?_, ran_next := ?_, one := ?_,
      order := ?_, allocated := ?_, count_pending := ?_ }
    · intro q m hq
      obtain ⟨h₁, h₂, h₃, h₄, h₅⟩ := h.owned q m ((howns q m).1 hq)
      have hmprev : m ≠ prev := fun hm => h₁ (hm ▸ hprev)
      exact ⟨h₁, h₂, (hnext hmprev).trans h₃, h₄, by rwa [attach_jobs]⟩
    · exact fun q q' m hq hq' => h.owner q q' m ((howns q m).1 hq) ((howns q' m).1 hq')
    · intro q m a hq
      obtain ⟨hqp, hqs⟩ := (hexch q m a).1 hq
      obtain ⟨h₁, h₂, h₃⟩ := h.between q m a hqs
      refine ⟨h₁, h₂, (hnext ?_).trans h₃⟩
      rintro rfl
      rw [hafter] at h₂
      cases h₂
      exact hqp (h.storer q p n a hqs hp)
    · exact fun q q' m a hq hq' => h.storer q q' m a ((hexch q m a).1 hq).2 ((hexch q' m a).1 hq').2
    · intro a ha b hb
      by_cases haprev : a = prev
      · subst haprev
        have hbn : some n = some b := by simpa using hb
        exact hbn ▸ hafter
      · exact h.next_after a ha b ((hnext haprev).symm.trans hb)
    · intro a ha b hb hanone
      have haprev : a ≠ prev := by
        rintro rfl
        simp at hanone
      obtain ⟨q, hq⟩ := h.unlinked a ha b hb ((hnext haprev).symm.trans hanone)
      refine ⟨q, (hexch q b a).2 ⟨?_, hq⟩⟩
      rintro rfl
      rw [hp] at hq
      cases hq
      exact haprev rfl
    · intro m hm
      have hhead := h.ran_next m hm
      refine (hnext ?_).trans hhead
      intro heq
      exact absurd ((congrArg (fun a => (s.node a).next) heq).symm.trans hhead) (by simp [hnone])
    · intro m hm
      rw [attach_jobs]
      exact h.one m hm
    · simp only [attach_jobs]
      exact h.order
    · intro m
      simp only [howns]
      exact h.allocated m
    · have hcount : p ∉ s.counting := by simp [mem_counting, hp, ProducerAt.isCounted]
      rw [counting_update (s := s) rfl, if_neg (by simp [ProducerAt.isCounted]), Finset.erase_eq_of_notMem hcount]
      exact h.count_pending
  · exact h

omit [DecidableEq P] in
theorem Inv.look (h : Inv s) : Inv s.look := by
  unfold TaskQueue.look
  split
  · next hw =>
    have hstarts := h.starts
    rw [hw] at hstarts
    split
    · have horder := h.order
      have hexecuted := h.count_executed
      rw [hw] at horder hexecuted
      exact { h with starts := hstarts, ran_next := fun n hn => (by cases hn), order := horder,
                     count_executed := hexecuted }
    · split
      · exact h
      · next n hnext =>
        obtain ⟨rest, hrest⟩ := h.chain_of_next hstarts hnext
        have hone : (s.node n).jobs.length = 1 := h.one n (by simp [hrest])
        have horder := h.order
        have hexecuted := h.count_executed
        rw [hw] at horder hexecuted
        refine { h with starts := ⟨rest, hrest⟩, ran_next := ?_, order := ?_, count_executed := ?_ }
        · rintro m ⟨⟩
          exact hnext
        · refine horder.trans ?_
          simp [hrest, WorkerAt.unrun]
        · simp only [List.length_append, hone, hexecuted, WorkerAt.running]
  · exact h

omit [DecidableEq P] in
theorem Inv.release (h : Inv s) : Inv s.release := by
  unfold TaskQueue.release
  split
  · next n hw =>
    have hstarts := h.starts
    rw [hw] at hstarts
    obtain ⟨rest, hrest⟩ := hstarts
    have hnodup := h.nodup
    rw [hrest, List.nodup_cons] at hnodup
    have hchain : (s.releaseNode n).chain = n :: rest := by simp [releaseNode, hrest]
    have hmem : ∀ {m}, m ∈ n :: rest → m ∈ s.chain := fun hm => hrest ▸ List.mem_cons_of_mem _ hm
    have hhead : s.head ∈ s.chain := h.head_mem hw
    have hne : ∀ {m}, m ∈ n :: rest → m ≠ s.head := fun hm hmh => hnodup.1 (hmh ▸ hm)
    have hnode : ∀ {m}, m ≠ s.head → (s.releaseNode n).node m = s.node m := fun hm => Function.update_of_ne hm ..
    have hfree : ∀ m, m ∈ (s.releaseNode n).freeNodes ↔ m ∈ s.freeNodes ∨ m = s.head ∧ s.head ∈ s.pool := by
      intro m
      by_cases hpool : s.head ∈ s.pool <;> simp [releaseNode, hpool]
    have hnext := h.ran_next n hw
    refine { h with
      nodup := ?_, free_nodup := ?_, free_apart := ?_, owned := ?_, between := ?_, linked := ?_, last := ?_,
      next_after := ?_, unlinked := ?_, starts := ?_, ran_next := ?_, one := ?_, order := ?_, allocated := ?_,
      heap_pool := ?_, count_executed := ?_ }
    · rw [hchain]
      exact hnodup.2
    · have hnot : s.head ∉ s.freeNodes := fun hf => (h.free_apart s.head hf).2 hhead
      by_cases hpool : s.head ∈ s.pool
      · simp only [releaseNode, hpool, if_true]
        exact List.nodup_append.2 ⟨h.free_nodup, List.nodup_singleton _,
          fun a ha b hb hab => hnot (List.mem_singleton.1 hb ▸ hab ▸ ha)⟩
      · simpa only [releaseNode, hpool, if_false] using h.free_nodup
    · intro m hm
      rw [hchain]
      rcases (hfree m).1 hm with hm | ⟨rfl, hpool⟩
      · exact ⟨(h.free_apart m hm).1, fun hmr => (h.free_apart m hm).2 (hmem hmr)⟩
      · exact ⟨hpool, hnodup.1⟩
    · intro q m hq
      obtain ⟨h₁, h₂, h₃, h₄, h₅⟩ := h.owned q m hq
      have hmh : m ≠ s.head := fun hm => h₁ (hm ▸ hhead)
      rw [hchain, hnode hmh]
      refine ⟨fun hm => h₁ (hmem hm), fun hm => ?_, h₃, h₄, h₅⟩
      rcases (hfree m).1 hm with hm | ⟨hm, -⟩
      · exact h₂ hm
      · exact hmh hm
    · intro q m a hq
      obtain ⟨h₁, h₂, h₃⟩ := h.between q m a hq
      have hah : a ≠ s.head := by
        rintro rfl
        simp [hnext] at h₃
      rw [hchain, hnode hah]
      rw [hrest] at h₁
      exact ⟨List.mem_of_ne_of_mem hah h₁, h₂, h₃⟩
    · have hlinked := h.linked
      rw [hrest] at hlinked
      rw [hchain]
      exact hlinked.tail
    · have hlast := h.last
      rw [hrest, List.getLast?_cons_cons] at hlast
      rw [hchain]
      exact hlast
    · intro a ha b hb
      rw [hchain] at ha
      rw [hnode (hne ha)] at hb
      exact h.next_after a (hmem ha) b hb
    · intro a ha b hb hnone
      rw [hchain] at ha
      rw [hnode (hne ha)] at hnone
      exact h.unlinked a (hmem ha) b hb hnone
    · rw [hchain]
      rfl
    · intro m hm
      cases hm
    · intro m hm
      rw [hchain] at hm
      have hmr : m ∈ n :: rest := List.mem_of_mem_tail hm
      rw [hnode (hne hmr)]
      exact h.one m (by rw [hrest]; exact hmr)
    · have horder := h.order
      rw [hw, hrest] at horder
      rw [hchain]
      refine horder.trans (congrArg _ (List.flatMap_congr fun m hm => ?_))
      rw [hnode (hne (List.mem_of_mem_tail hm))]
    · intro m
      have howns : (∃ q, (s.releaseNode n).Owns q m) ↔ ∃ q, s.Owns q m := Iff.rfl
      rw [hchain, hfree m, howns]
      have hall := h.allocated m
      rw [hrest, Finset.mem_union] at hall
      by_cases hpool : s.head ∈ s.pool
      · simp only [releaseNode, hpool, if_true, and_true, Finset.mem_union]
        refine hall.trans ?_
        rw [List.mem_cons]
        grind
      · simp only [releaseNode, hpool, if_false, and_false, or_false, Finset.mem_union, Finset.mem_erase]
        by_cases hmh : m = s.head
        · subst hmh
          have hfreed : s.head ∉ s.freeNodes := fun hf => (h.free_apart s.head hf).2 hhead
          have howned : ¬ ∃ q, s.Owns q s.head := fun ⟨q, hq⟩ => (h.owned q s.head hq).1 hhead
          exact iff_of_false (by simp [hpool]) fun hor => hor.elim hnodup.1 fun hor => hor.elim hfreed howned
        · rw [List.mem_cons, or_iff_right hmh] at hall
          simpa [hmh] using hall
    · by_cases hpool : s.head ∈ s.pool
      · simpa only [releaseNode, hpool, if_true] using h.heap_pool
      · simp only [releaseNode, hpool, if_false]
        exact Finset.disjoint_of_subset_left (Finset.erase_subset ..) h.heap_pool
    · have hexecuted := h.count_executed
      rw [hw] at hexecuted
      exact hexecuted
  · exact h

omit [DecidableEq P] in
theorem Inv.move (h : Inv s) : Inv s.move := by
  unfold TaskQueue.move
  split
  · next n hw =>
    have hstarts := h.starts
    have horder := h.order
    have hexecuted := h.count_executed
    rw [hw] at hstarts horder hexecuted
    exact { h with starts := hstarts, ran_next := fun m hm => (by cases hm), order := horder,
                   count_executed := hexecuted }
  · exact h

omit [DecidableEq P] in
theorem Inv.uncount (h : Inv s) : Inv s.uncount := by
  unfold TaskQueue.uncount
  split
  · next hw =>
    have hstarts := h.starts
    have horder := h.order
    have hexecuted := h.count_executed
    have hpending := h.count_pending
    rw [hw] at hstarts horder hexecuted
    have hlen : s.executed.length ≤ s.pushed.length := by
      rw [horder, List.length_append]
      exact Nat.le_add_right ..
    simp only [WorkerAt.running] at hexecuted
    refine { h with starts := hstarts, ran_next := fun m hm => (by cases hm), order := horder,
                    count_pending := ?_, count_executed := hexecuted }
    show s.pending - 1 + (s.finished + 1) = s.pushed.length + s.counting.card
    omega
  · exact h

theorem nodup_bootNodes (queueOpt : Bool) (base : ℕ) : (bootNodes queueOpt base).Nodup := by
  cases queueOpt with
  | false => exact List.nodup_nil
  | true => exact List.nodup_range.map fun a b hab => Nat.add_left_cancel hab

theorem bootNodes_eq (queueOpt : Bool) (base fresh : ℕ) :
    bootNodes queueOpt base = [] ∨ ∃ dummy, (bootNodes queueOpt base).getLast?.getD fresh = dummy ∧
      bootNodes queueOpt base = (bootNodes queueOpt base).dropLast ++ [dummy] := by
  rcases List.eq_nil_or_concat (bootNodes queueOpt base) with hnil | ⟨l, dummy, hl⟩
  · exact .inl hnil
  · refine .inr ⟨dummy, ?_, ?_⟩ <;> simp [hl]

omit [DecidableEq P] in
theorem inv_init (queueOpt : Bool) (base fresh : ℕ) : Inv (init queueOpt base fresh : TaskQueue P F R) := by
  have howns : ∀ p n, ¬ (init queueOpt base fresh : TaskQueue P F R).Owns p n := fun p n hp => by
    simp [Owns, init] at hp
  have hcounting : (init queueOpt base fresh : TaskQueue P F R).counting = ∅ := by
    simp [counting, init, ProducerAt.isCounted]
  have hnodes := nodup_bootNodes queueOpt base
  have hapart : ∀ n ∈ (bootNodes queueOpt base).dropLast, n ≠ (bootNodes queueOpt base).getLast?.getD fresh := by
    rcases bootNodes_eq queueOpt base fresh with hnil | ⟨dummy, hd, hl⟩
    · simp [hnil]
    · intro n hn
      rw [hl, List.nodup_append] at hnodes
      rw [hd]
      exact hnodes.2.2 n hn dummy (List.mem_singleton_self dummy)
  exact {
    nodup := List.nodup_singleton _
    free_nodup := hnodes.sublist (List.dropLast_sublist _)
    free_apart := fun n hn =>
      ⟨List.mem_toFinset.2 (List.mem_of_mem_dropLast hn), fun hc => hapart n hn (List.mem_singleton.1 hc)⟩
    owned := fun p n hp => absurd hp (howns p n)
    owner := fun p q n hp => absurd hp (howns p n)
    between := fun p n a hp => by cases hp
    storer := fun p q n a hp => by cases hp
    linked := List.isChain_singleton _
    last := rfl
    after_tail := rfl
    next_after := fun a _ b hb => by cases hb
    unlinked := fun a _ b hb => by cases hb
    starts := rfl
    ran_next := fun n hn => by cases hn
    one := fun n hn => by cases hn
    order := rfl
    allocated := fun n => by
      rcases bootNodes_eq queueOpt base fresh with hnil | ⟨dummy, hd, hl⟩
      · simp [init, hnil, Owns]
      · have hne : bootNodes queueOpt base ≠ [] := by
          rw [hl]
          simp
        have hmem : n ∈ bootNodes queueOpt base ↔ n ∈ (bootNodes queueOpt base).dropLast ∨ n = dummy := by
          conv_lhs => rw [hl]
          simp
        simp [init, hne, hd, hmem, Owns, or_comm]
    heap_pool := by
      by_cases hnil : bootNodes queueOpt base = [] <;> simp [init, hnil]
    count_pending := by
      rw [hcounting]
      rfl
    count_executed := rfl }

/-- Every step keeps the invariant. -/
theorem inv_step (s : TaskQueue P F R) (e : TaskQueueStep P F R) (h : Inv s) : Inv (s.step e) := by
  cases e with
  | acquire p job fresh => exact h.acquire p job fresh
  | count p => exact h.count p
  | exchange p => exact h.exchange p
  | link p => exact h.link p
  | look => exact h.look
  | release => exact h.release
  | move => exact h.move
  | uncount => exact h.uncount
  | stop => exact { h with }

/-! ## Safety -/

/-- The nodes that the next step of some thread reads or writes. -/
def Touches (s : TaskQueue P F R) (n : ℕ) : Prop :=
  (∃ p, s.Owns p n) ∨ (∃ p m, s.producer p = .exchanged m n) ∨ (s.worker = .looking ∧ n = s.head) ∨
    (s.worker = .looking ∧ (s.node s.head).next = some n) ∨ ∃ m, s.worker = .ran m ∧ n = s.head

omit [DecidableEq P] [Fintype P] in
/-- What the queue promises: the jobs are run in the order of their exchange, each once, and those not yet run are in
the list; a node that some thread is about to touch is allocated and not free; no node is in two hands; `pending`
counts the jobs that have been asked for and are not over; and the worker goes on while no store is outstanding. -/
structure Safe [Fintype P] (s : TaskQueue P F R) : Prop where
  fifo : s.pushed = s.executed ++ (s.worker.unrun s.chain).flatMap fun n => (s.node n).jobs
  alive : ∀ n, s.Touches n → n ∈ s.heap ∪ s.pool ∧ n ∉ s.freeNodes
  free : s.freeNodes.Nodup ∧ ∀ n ∈ s.freeNodes, n ∈ s.pool
  apart : ∀ p q n, s.Owns p n → s.Owns q n → p = q
  pending : s.pending + s.finished = s.pushed.length + s.counting.card
  drained : s.pending = 0 → s.executed = s.pushed ∧ s.finished = s.pushed.length
  goesOn : s.worker = .looking → s.done = false → (∀ p n a, s.producer p ≠ .exchanged n a) → s.executed ≠ s.pushed →
    s.look.executed.length = s.executed.length + 1

omit [DecidableEq P] in
theorem Inv.safe (h : Inv s) : Safe s where
  fifo := h.order
  alive := by
    have hchain : ∀ {n}, n ∈ s.chain → n ∈ s.heap ∪ s.pool ∧ n ∉ s.freeNodes := fun hn =>
      ⟨(h.allocated _).2 (.inl hn), fun hf => (h.free_apart _ hf).2 hn⟩
    rintro n (⟨p, hp⟩ | ⟨p, m, hp⟩ | ⟨hw, rfl⟩ | ⟨hw, hnext⟩ | ⟨m, hw, rfl⟩)
    · exact ⟨(h.allocated n).2 (.inr (.inr ⟨p, hp⟩)), (h.owned p n hp).2.1⟩
    · exact hchain (h.between p m n hp).1
    · have hstarts := h.starts
      rw [hw] at hstarts
      exact hchain (List.mem_of_mem_head? hstarts)
    · have hstarts := h.starts
      rw [hw] at hstarts
      obtain ⟨rest, hrest⟩ := h.chain_of_next hstarts hnext
      exact hchain (by simp [hrest])
    · exact hchain (h.head_mem hw)
  free := ⟨h.free_nodup, fun n hn => (h.free_apart n hn).1⟩
  apart := h.owner
  pending := h.count_pending
  drained := by
    intro hzero
    have hpending := h.count_pending
    have hexecuted := h.count_executed
    have hlen := congrArg List.length h.order
    rw [List.length_append] at hlen
    have hall : s.executed.length = s.pushed.length := by omega
    have hpre : s.executed <+: s.pushed := ⟨_, h.order.symm⟩
    exact ⟨hpre.eq_of_length hall, by omega⟩
  goesOn := by
    intro hw hdone hstores hne
    have hstarts := h.starts
    have horder := h.order
    rw [hw] at hstarts horder
    cases hnext : (s.node s.head).next with
    | some n =>
      obtain ⟨rest, hrest⟩ := h.chain_of_next hstarts hnext
      have hone : (s.node n).jobs.length = 1 := h.one n (by simp [hrest])
      simp [TaskQueue.look, hw, hdone, hnext, hone]
    | none =>
      obtain ⟨t, ht⟩ := List.head?_eq_some_iff.1 hstarts
      cases t with
      | nil =>
        rw [ht] at horder
        exact absurd (by simpa [WorkerAt.unrun] using horder.symm) hne
      | cons b rest =>
        have hlinked := h.linked
        rw [ht, List.isChain_cons_cons] at hlinked
        obtain ⟨p, hp⟩ := h.unlinked s.head (by simp [ht]) b hlinked.1 hnext
        exact absurd hp (hstores p b s.head)

/-- **The task queue.** In every run of any number of producers and the worker, from the constructor, with the node
pool or without it, every state is safe. -/
theorem taskQueue_safe (queueOpt : Bool) (base fresh : ℕ) (es : List (TaskQueueStep P F R)) :
    StatesHold step Safe (init queueOpt base fresh) es :=
  (StatesHold.of_invariant inv_step (inv_init queueOpt base fresh) es).mono fun _ h => h.safe

/-! ## The destructor -/

omit [DecidableEq P] [Fintype P] in
/-- The walk along nodes that are linked one to the next. -/
theorem walk_chain {chain : List ℕ} (hlinked : chain.IsChain fun a b => (s.node a).next = some b)
    (hlast : ∀ a, chain.getLast? = some a → (s.node a).next = none) {fuel : ℕ} (hfuel : chain.length ≤ fuel) :
    s.walk fuel chain.head? = chain := by
  induction chain generalizing fuel with
  | nil => cases fuel <;> rfl
  | cons a chain ih =>
    obtain ⟨fuel, rfl⟩ : ∃ k, fuel = k + 1 := Nat.exists_eq_add_one.2 (lt_of_lt_of_le (Nat.succ_pos _) hfuel)
    have hnext : (s.node a).next = chain.head? := by
      cases chain with
      | nil => exact hlast a rfl
      | cons b chain => exact (List.isChain_cons_cons.1 hlinked).1
    have hrest : s.walk fuel chain.head? = chain := by
      apply ih hlinked.tail
      · intro b hb
        cases chain with
        | nil => cases hb
        | cons c chain => exact hlast b (by rwa [List.getLast?_cons_cons])
      · simpa using hfuel
    simp [walk, hnext, hrest]

omit [DecidableEq P] in
/-- With no store outstanding, every node of the chain has its successor in `next`. -/
theorem Inv.next_eq (h : Inv s) (hidle : ∀ p, s.producer p = .idle) {a : ℕ} (ha : a ∈ s.chain) :
    (s.node a).next = s.after a := by
  cases hnext : (s.node a).next with
  | some b => exact (h.next_after a ha b hnext).symm
  | none =>
    cases hafter : s.after a with
    | none => rfl
    | some b =>
      obtain ⟨p, hp⟩ := h.unlinked a ha b hafter hnext
      simp [hidle p] at hp

omit [DecidableEq P] in
theorem Inv.walk_eq (h : Inv s) (hw : s.worker = .exited) (hidle : ∀ p, s.producer p = .idle) {fuel : ℕ}
    (hfuel : s.chain.length ≤ fuel) : s.walk fuel (some s.head) = s.chain := by
  have hstarts := h.starts
  rw [hw] at hstarts
  have hhead : s.chain.head? = some s.head := hstarts
  rw [← hhead]
  apply walk_chain _ _ hfuel
  · exact h.linked.imp_of_mem_imp fun a b ha _ hab => (h.next_eq hidle ha).trans hab
  · intro a ha
    have htail : a = s.tail := Option.some.inj (ha.symm.trans h.last)
    rw [h.next_eq hidle (List.mem_of_getLast? ha), htail, h.after_tail]

omit [DecidableEq P] in
/-- Nodes of the chain are allocated, so there are no more of them than of allocated nodes. -/
theorem Inv.chain_length_le (h : Inv s) : s.chain.length ≤ (s.heap ∪ s.pool).card := by
  rw [← List.toFinset_card_of_nodup h.nodup]
  exact Finset.card_le_card fun n hn => (h.allocated n).2 (.inl (List.mem_toFinset.1 hn))

/-- **The destructor.** After any run, once the worker has left its loop and no producer is in the middle of a push,
the walk takes in the whole list: it deletes every node that `new` has made and that is not deleted yet, each
once, and nothing else. -/
theorem taskQueue_destroyed (queueOpt : Bool) (base fresh : ℕ) (es : List (TaskQueueStep P F R)) :
    let s : TaskQueue P F R := es.foldl step (init queueOpt base fresh)
    s.worker = .exited → (∀ p, s.producer p = .idle) → ∀ fuel, (s.heap ∪ s.pool).card ≤ fuel →
      (s.destroyed fuel).Nodup ∧ ∀ n, n ∈ s.destroyed fuel ↔ n ∈ s.heap := by
  intro s hw hidle fuel hfuel
  have h : Inv s := (StatesHold.of_invariant inv_step (inv_init queueOpt base fresh) es).last
  have hwalk := h.walk_eq hw hidle (h.chain_length_le.trans hfuel)
  refine ⟨?_, fun n => ?_⟩
  · rw [destroyed, hwalk]
    exact h.nodup.filter _
  · have howns : ¬ ∃ p, s.Owns p n := fun ⟨p, hp⟩ => by simp [Owns, hidle p] at hp
    have hall := h.allocated n
    rw [Finset.mem_union] at hall
    rw [destroyed, hwalk, List.mem_filter, decide_eq_true_eq]
    refine ⟨fun ⟨hc, hpool⟩ => (hall.2 (.inl hc)).resolve_right hpool, fun hheap => ?_⟩
    have hpool : n ∉ s.pool := Finset.disjoint_left.1 h.heap_pool hheap
    rcases hall.1 (.inl hheap) with hc | hf | hp
    · exact ⟨hc, hpool⟩
    · exact absurd (h.free_apart n hf).1 hpool
    · exact absurd hp howns

/-- A producer pushes one job, the worker runs it and is told to stop. -/
theorem taskQueue_destroyed_run :
    let s : TaskQueue Unit Unit Unit := [.acquire () (.inl ()) 1, .count (), .exchange (), .link (), .look, .release,
      .move, .uncount, .stop, .look].foldl step (init false 0 0)
    (s.destroyed 1).Nodup ∧ ∀ n, n ∈ s.destroyed 1 ↔ n ∈ s.heap :=
  taskQueue_destroyed false 0 0 _ rfl (fun _ => rfl) 1 (by decide)

end Steps

end TaskQueue

end ExpertServe
