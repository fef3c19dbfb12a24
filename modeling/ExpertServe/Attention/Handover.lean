import ExpertServe.Attention.IndexShare
import ExpertServe.Lib.Run
import Mathlib.Logic.Function.Basic

/-!
# Handing the top-k from Full layers to Shared ones

One slot of the process serves every layer of the target and of the NEXTN draft. A pass runs its layers in order, or
replays a graph: the pointers its Shared layers took from the slot when it was captured, over allocations that its Full
layers fill again.

* `Server.step`: an eager pass, a capture or a replay, of either model;
* `Read.Own`: a Shared layer reads what the nearest Full layer before it picked in the same pass;
* `exec_forward`: a pass whose first layer is Full reads only its own indices, whatever the slot held;
* `Server.handover_iff`: when every interleaving of passes does.
-/

namespace ExpertServe.IndexShare

open Lib

/-! ## Workers -/

/-- A model with the range of layers its runner drives. -/
structure Worker where
  config : PretrainedConfig
  startLayer : ℕ
  endLayer : ℕ

/-- The two models of a process that share the slot. -/
inductive Model where
  | target
  | draft
deriving DecidableEq

structure Server where
  target : Worker
  draft : Worker

def Server.worker (sv : Server) : Model → Worker
  | .target => sv.target
  | .draft => sv.draft

/-- The whole model, on one pipeline rank, and its NEXTN layer, which is built at layer id 0. -/
def Server.withNextn (config : PretrainedConfig) : Server where
  target := ⟨config, 0, config.numHiddenLayers⟩
  draft := ⟨{ config with architectures := some ["DeepseekV3ForCausalLMNextN"] }, 0, 1⟩

namespace Worker

def layer (py : Casing) (w : Worker) (layerId : ℕ) : AttentionLayer := AttentionLayer.init py w.config layerId

/-- The layer ids of a pass, in the order they run. -/
def layerIds (w : Worker) : List ℕ := List.range' w.startLayer (w.endLayer - w.startLayer)

/-- The pool the runner of the worker builds. -/
def kvPool (py : Casing) (w : Worker) (size pageSize : ℕ) : NSATokenToKVPool :=
  NSATokenToKVPool.init size pageSize (w.endLayer - w.startLayer) (some w.startLayer) (getNsaIndexerPattern py w.config)

/-- Layers of a pass one after the other, with the slot between them. -/
def runLayers (py : Casing) (w : Worker) (method : AttnForwardMethod) (n : ℕ) :
    List ℕ → Option Indices → List Op × Option Indices
  | [], slot => ([], slot)
  | l :: ls, slot =>
    let (ops, slot) := (w.layer py l).prepare method n slot
    let (rest, slot) := runLayers py w method n ls slot
    (ops ++ rest, slot)

/-- A pass in Python: what it asks of the device, and the slot it leaves. -/
def forward (py : Casing) (w : Worker) (method : AttnForwardMethod) (n : ℕ) (slot : Option Indices) :
    List Op × Option Indices :=
  runLayers py w method n w.layerIds slot

end Worker

/-! ## Runs -/

/-- A read of the indices of the slot: the model and the pass, the layer that reads, and the call that picked what it
finds, `none` when there is nothing to find. -/
structure Read where
  model : Model
  pass : ℕ
  layer : ℕ
  seen : Option Indices
deriving DecidableEq

/-- A run of an indexer over the index keys of its layer. -/
structure Call where
  model : Model
  layer : ℕ
deriving DecidableEq

structure Graph where
  model : Model
  ops : List Op

/-- The slot, the pass that last filled each allocation, the captured graphs, and what the device has done so far. -/
structure State where
  slot : Option Indices
  filled : Indices → Option ℕ
  graphs : List Graph
  passes : ℕ
  reads : List Read
  calls : List Call

def State.init : State := ⟨none, fun _ => none, [], 0, [], []⟩

/-- The device runs one operation of pass `n`. -/
def execOp (m : Model) (n : ℕ) (s : State) : Op → State
  | .indexer l dst =>
    { s with
      filled := match dst with
        | some a => Function.update s.filled a (some n)
        | none => s.filled
      calls := s.calls ++ [⟨m, l⟩] }
  | .read l src => { s with reads := s.reads ++ [⟨m, n, l, src.bind fun a => (s.filled a).map (⟨·, a.layer⟩)⟩] }

def exec (m : Model) (n : ℕ) (s : State) (ops : List Op) : State := ops.foldl (execOp m n) s

/-- What the process does next: an eager pass, the capture of a graph, or the replay of the `g`-th one. -/
inductive Event where
  | eager (m : Model) (method : AttnForwardMethod)
  | capture (m : Model) (method : AttnForwardMethod)
  | replay (g : ℕ)

namespace Server

variable (py : Casing) (sv : Server)

def step (s : State) : Event → State
  | .eager m method =>
    let (ops, slot) := (sv.worker m).forward py method s.passes s.slot
    exec m s.passes { s with slot, passes := s.passes + 1 } ops
  | .capture m method =>
    let (ops, slot) := (sv.worker m).forward py method s.passes s.slot
    { s with slot, passes := s.passes + 1, graphs := s.graphs ++ [⟨m, ops⟩] }
  | .replay g =>
    match s.graphs[g]? with
    | some graph => exec graph.model s.passes { s with passes := s.passes + 1 } graph.ops
    | none => s

/-- The state after a run of the process. -/
def run (es : List Event) : State := es.foldl (sv.step py) State.init

end Server

/-! ## What a read should find -/

section Handover

variable (py : Casing)

/-- The nearest Full layer before layer `l` is `j`. -/
def Worker.NearestFull (w : Worker) (j l : ℕ) : Prop :=
  w.startLayer ≤ j ∧ j < l ∧ (w.layer py j).indexer ∧ ∀ k, j < k → k < l → ¬ (w.layer py k).indexer

/-- A read finds what the nearest Full layer before it picked in the same pass. -/
def Read.Own (sv : Server) (r : Read) : Prop :=
  ∃ j, (sv.worker r.model).NearestFull py j r.layer ∧ r.seen = some ⟨r.pass, j⟩

/-- A run of an indexer finds a buffer over all pages of the pool. -/
def Call.FullLength (sv : Server) (size pageSize : ℕ) (c : Call) : Prop :=
  let pool := (sv.worker c.model).kvPool py size pageSize
  pool.getIndexKWithScaleBuffer c.layer = some pool.numPages

/-- The layers of a worker hand indices over. -/
def Worker.HandsOver (w : Worker) : Prop := isDeepseekNsa w.config ∧ w.config.qLoraRank.isSome

/-- The first layer of the worker owns an indexer, if its layers hand indices over. -/
def Worker.LeadsFull (w : Worker) : Prop :=
  w.HandsOver → w.startLayer < w.endLayer → nsaLayerHasOwnIndexer py w.config w.startLayer

variable {py}

/-! ## One layer -/

theorem indexer_layer {w : Worker} {l : ℕ} :
    (w.layer py l).indexer ↔ isDeepseekNsa w.config ∧ nsaLayerHasOwnIndexer py w.config l := by
  simp only [Worker.layer, AttentionLayer.init]
  cases isDeepseekNsa w.config <;> cases nsaLayerHasOwnIndexer py w.config l <;> simp

theorem shared_layer {w : Worker} {l : ℕ} :
    (w.layer py l).nsaIndexerIsShared ↔ isDeepseekNsa w.config ∧ ¬ nsaLayerHasOwnIndexer py w.config l := by
  simp only [Worker.layer, AttentionLayer.init]
  cases isDeepseekNsa w.config <;> cases nsaLayerHasOwnIndexer py w.config l <;> simp

/-- A Full layer of an absorbed pass fills its own indices and leaves them in the slot. -/
theorem absorb_full {w : Worker} (hw : w.HandsOver) {l : ℕ} (hl : (w.layer py l).indexer) (n : ℕ)
    (slot : Option Indices) : (w.layer py l).prepare .mla n slot = ([.indexer l (some ⟨n, l⟩)], some ⟨n, l⟩) := by
  have hq : (w.layer py l).qLoraRank.isSome := hw.2
  simp only [AttentionLayer.prepare, AttentionLayer.forwardAbsorbPrepare, hq, hl, if_true]
  rfl

/-- A Shared layer of an absorbed pass reads through the slot. -/
theorem absorb_shared {w : Worker} (hw : w.HandsOver) {l : ℕ} (hl : ¬ (w.layer py l).indexer) (n : ℕ)
    (slot : Option Indices) : (w.layer py l).prepare .mla n slot = ([.read l slot], slot) := by
  have hq : (w.layer py l).qLoraRank.isSome := hw.2
  have hshared : (w.layer py l).nsaIndexerIsShared :=
    shared_layer.mpr ⟨hw.1, fun hown => hl (indexer_layer.mpr ⟨hw.1, hown⟩)⟩
  simp only [AttentionLayer.prepare, AttentionLayer.forwardAbsorbPrepare, hq, hshared, if_true]
  rw [if_neg hl]
  rfl

/-- The layers of a worker that hands nothing over touch neither the slot nor an indexer of their own. -/
theorem absorb_none {w : Worker} (hw : ¬ w.HandsOver) (l n : ℕ) (slot : Option Indices) :
    (w.layer py l).prepare .mla n slot = ([], slot) := by
  by_cases hq : (w.layer py l).qLoraRank.isSome
  · have hnsa : ¬ isDeepseekNsa w.config := fun h => hw ⟨h, hq⟩
    have hfull : ¬ (w.layer py l).indexer := fun h => hnsa (indexer_layer.mp h).1
    have hshared : ¬ (w.layer py l).nsaIndexerIsShared := fun h => hnsa (shared_layer.mp h).1
    simp [AttentionLayer.prepare, AttentionLayer.forwardAbsorbPrepare, hfull, hshared]
  · simp [AttentionLayer.prepare, AttentionLayer.forwardAbsorbPrepare, hq]

/-- Only an absorbed pass reads the slot. -/
theorem prepare_of_ne_mla {l : AttentionLayer} {method : AttnForwardMethod} (hm : method ≠ .mla) (n : ℕ)
    (slot : Option Indices) :
    (l.prepare method n slot).2 = slot ∧
      ∀ op ∈ (l.prepare method n slot).1, op = .indexer l.layerId none ∧ l.indexer := by
  have hnormal : ∀ op ∈ l.forwardNormalPrepare, op = .indexer l.layerId none ∧ l.indexer := by
    unfold AttentionLayer.forwardNormalPrepare
    split
    · next h => exact fun op hop => ⟨List.mem_singleton.mp hop, h.2.2⟩
    · simp
  cases method with
  | mla => exact absurd rfl hm
  | mha => exact ⟨rfl, hnormal⟩
  | mhaChunkedKv => exact ⟨rfl, hnormal⟩
  | mhaOneShot => exact ⟨rfl, hnormal⟩
  | mlaFusedRope => exact ⟨rfl, by simp [AttentionLayer.prepare]⟩
  | mlaFusedRopeCpu => exact ⟨rfl, by simp [AttentionLayer.prepare]⟩

/-! ## One pass -/

/-- The slot holds the indices that the nearest Full layer before `l` picked in the pass being run. -/
def Handed (py : Casing) (w : Worker) (c n l : ℕ) (slot : Option Indices) (filled : Indices → Option ℕ) : Prop :=
  ∃ j, w.NearestFull py j l ∧ slot = some ⟨c, j⟩ ∧ filled ⟨c, j⟩ = some n

theorem handed_after_full {w : Worker} {l : ℕ} (hstart : w.startLayer ≤ l) (hl : (w.layer py l).indexer) (c n : ℕ)
    (filled : Indices → Option ℕ) :
    Handed py w c n (l + 1) (some ⟨c, l⟩) (Function.update filled ⟨c, l⟩ (some n)) :=
  ⟨l, ⟨hstart, l.lt_succ_self, hl, fun k hk hk' => by omega⟩, rfl, Function.update_self ..⟩

theorem Handed.after_shared {w : Worker} {c n l : ℕ} {slot : Option Indices} {filled : Indices → Option ℕ}
    (h : Handed py w c n l slot filled) (hl : ¬ (w.layer py l).indexer) : Handed py w c n (l + 1) slot filled := by
  obtain ⟨j, ⟨hstart, hj, hfull, hbetween⟩, hslot, hfilled⟩ := h
  refine ⟨j, ⟨hstart, by omega, hfull, fun k hk hk' => ?_⟩, hslot, hfilled⟩
  rcases Nat.lt_succ_iff_lt_or_eq.mp hk' with h | rfl
  · exact hbetween k hk h
  · exact hl

variable {sv : Server}

/-- All reads so far found their own indices. -/
def State.ReadsOwn (py : Casing) (sv : Server) (s : State) : Prop := ∀ r ∈ s.reads, r.Own py sv

theorem State.ReadsOwn.execRead {s : State} (h : s.ReadsOwn py sv) {m : Model} {c n l : ℕ} {slot : Option Indices}
    (hs : Handed py (sv.worker m) c n l slot s.filled) : (execOp m n s (.read l slot)).ReadsOwn py sv := by
  obtain ⟨j, hj, rfl, hfilled⟩ := hs
  intro r hr
  rcases List.mem_append.mp hr with hr | hr
  · exact h r hr
  · obtain rfl := List.mem_singleton.mp hr
    exact ⟨j, hj, by simp [hfilled]⟩

/-- Consecutive layers of an absorbed pass, of which the first finds the slot handed over. -/
theorem exec_layers {m : Model} {c n : ℕ} : ∀ (k l : ℕ) (slot : Option Indices) (s : State),
    (sv.worker m).startLayer ≤ l → ((sv.worker m).HandsOver → Handed py (sv.worker m) c n l slot s.filled) →
    s.ReadsOwn py sv →
    (exec m n s ((sv.worker m).runLayers py .mla c (List.range' l k) slot).1).ReadsOwn py sv
  | 0, _, _, _, _, _, h => h
  | k + 1, l, slot, s, hstart, hs, h => by
    rw [List.range'_succ, Worker.runLayers]
    by_cases hw : (sv.worker m).HandsOver
    · by_cases hl : ((sv.worker m).layer py l).indexer
      · rw [absorb_full hw hl]
        exact exec_layers k (l + 1) _ (execOp m n s _) (by omega) (fun _ => handed_after_full hstart hl c n s.filled) h
      · rw [absorb_shared hw hl]
        exact exec_layers k (l + 1) _ (execOp m n s _) (by omega) (fun _ => (hs hw).after_shared hl)
          (h.execRead (hs hw))
    · rw [absorb_none hw]
      exact exec_layers k (l + 1) slot s (by omega) (fun h => absurd h hw) h

/-- What the layers of a pass that is not absorbed ask for: runs of indexers, for their keys only. -/
theorem runLayers_of_ne_mla {w : Worker} {method : AttnForwardMethod} (hm : method ≠ .mla) (c : ℕ) :
    ∀ (ls : List ℕ) (slot : Option Indices), ∀ op ∈ (w.runLayers py method c ls slot).1, ∃ l, op = .indexer l none
  | [], _, op, hop => absurd hop List.not_mem_nil
  | l :: ls, slot, op, hop => by
    rcases List.mem_append.mp hop with hop | hop
    · exact ⟨_, ((prepare_of_ne_mla hm c slot).2 op hop).1⟩
    · exact runLayers_of_ne_mla hm c ls _ op hop

theorem exec_reads_of_indexers {m : Model} {n : ℕ} : ∀ (ops : List Op) (s : State),
    (∀ op ∈ ops, ∃ l, op = .indexer l none) → (exec m n s ops).reads = s.reads
  | [], _, _ => rfl
  | op :: ops, s, h => by
    obtain ⟨l, rfl⟩ := h op List.mem_cons_self
    exact exec_reads_of_indexers ops (execOp m n s (.indexer l none)) fun op hop => h op (List.mem_cons_of_mem _ hop)

/-- **One pass.** A pass whose first layer is Full reads only its own indices, whatever the slot held before. The pass
that asked, `c`, is an earlier one when a graph is replayed. -/
theorem exec_forward {m : Model} (hlead : (sv.worker m).LeadsFull py) (method : AttnForwardMethod) (c n : ℕ)
    (slot : Option Indices) {s : State} (h : s.ReadsOwn py sv) :
    (exec m n s ((sv.worker m).forward py method c slot).1).ReadsOwn py sv := by
  by_cases hm : method = .mla
  · subst hm
    rw [Worker.forward, Worker.layerIds]
    rcases hk : (sv.worker m).endLayer - (sv.worker m).startLayer with _ | k
    · exact h
    · have hlt : (sv.worker m).startLayer < (sv.worker m).endLayer := by omega
      rw [List.range'_succ, Worker.runLayers]
      by_cases hw : (sv.worker m).HandsOver
      · have hl : ((sv.worker m).layer py (sv.worker m).startLayer).indexer :=
          indexer_layer.mpr ⟨hw.1, hlead hw hlt⟩
        rw [absorb_full hw hl]
        exact exec_layers k _ _ (execOp m n s _) (by omega) (fun _ => handed_after_full le_rfl hl c n s.filled) h
      · rw [absorb_none hw]
        exact exec_layers k _ slot s (by omega) (fun h => absurd h hw) h
  · have hops : ∀ op ∈ ((sv.worker m).forward py method c slot).1, ∃ l, op = .indexer l none :=
      runLayers_of_ne_mla hm c (sv.worker m).layerIds slot
    intro r hr
    rw [exec_reads_of_indexers _ s hops] at hr
    exact h r hr

/-! ## The indexers that run -/

/-- All runs of an indexer so far found a buffer over all pages. -/
def State.CallsFull (py : Casing) (sv : Server) (size pageSize : ℕ) (s : State) : Prop :=
  ∀ call ∈ s.calls, call.FullLength py sv size pageSize

/-- **Indexers and buffers.** A layer of the worker that owns an indexer has a buffer over all pages. -/
theorem fullLength_of_indexer {m : Model} {l : ℕ} (hl : l ∈ (sv.worker m).layerIds)
    (hindexer : ((sv.worker m).layer py l).indexer) (size pageSize : ℕ) :
    Call.FullLength py sv size pageSize ⟨m, l⟩ := by
  have hmem := List.mem_range'_1.mp hl
  have hend : l < (sv.worker m).endLayer := by omega
  have hbuf := getIndexK_init py (sv.worker m).config size pageSize hmem.1 hend
  rw [if_pos (indexer_layer.mp hindexer).2] at hbuf
  exact hbuf

/-- A layer runs an indexer only when it owns one, and then over its own keys. -/
theorem indexer_of_mem_prepare {w : Worker} (method : AttnForwardMethod) (c : ℕ) {l l' : ℕ} {dst slot : Option Indices}
    (hop : .indexer l dst ∈ ((w.layer py l').prepare method c slot).1) : l = l' ∧ (w.layer py l').indexer := by
  by_cases hm : method = .mla
  · subst hm
    by_cases hw : w.HandsOver
    · by_cases hl : (w.layer py l').indexer
      · rw [absorb_full hw hl, List.mem_singleton, Op.indexer.injEq] at hop
        exact ⟨hop.1, hl⟩
      · rw [absorb_shared hw hl, List.mem_singleton] at hop
        cases hop
    · rw [absorb_none hw] at hop
      exact absurd hop List.not_mem_nil
  · obtain ⟨hop, hl⟩ := (prepare_of_ne_mla hm c slot).2 _ hop
    exact ⟨(Op.indexer.inj hop).1, hl⟩

theorem indexer_of_mem_runLayers {w : Worker} (method : AttnForwardMethod) (c : ℕ) {l : ℕ} {dst : Option Indices} :
    ∀ (ls : List ℕ) (slot : Option Indices), .indexer l dst ∈ (w.runLayers py method c ls slot).1 →
      l ∈ ls ∧ (w.layer py l).indexer
  | [], _, hop => absurd hop List.not_mem_nil
  | l' :: ls, slot, hop => by
    rcases List.mem_append.mp hop with hop | hop
    · obtain ⟨rfl, hindexer⟩ := indexer_of_mem_prepare method c hop
      exact ⟨List.mem_cons_self, hindexer⟩
    · obtain ⟨hl, hindexer⟩ := indexer_of_mem_runLayers method c ls _ hop
      exact ⟨List.mem_cons_of_mem l' hl, hindexer⟩

theorem exec_calls {m : Model} {n : ℕ} : ∀ (ops : List Op) (s : State) (call : Call), call ∈ (exec m n s ops).calls →
    call ∈ s.calls ∨ ∃ l dst, .indexer l dst ∈ ops ∧ call = ⟨m, l⟩
  | [], _, _, h => .inl h
  | op :: ops, s, call, h => by
    rcases exec_calls ops (execOp m n s op) call h with h | ⟨l, dst, hop, rfl⟩
    · cases op with
      | read l src => exact .inl h
      | indexer l dst =>
        rcases List.mem_append.mp h with h | h
        · exact .inl h
        · exact .inr ⟨l, dst, List.mem_cons_self, List.mem_singleton.mp h⟩
    · exact .inr ⟨l, dst, List.mem_cons_of_mem op hop, rfl⟩

theorem exec_forward_calls {m : Model} (method : AttnForwardMethod) (c n : ℕ) (slot : Option Indices) {s : State}
    {size pageSize : ℕ} (h : s.CallsFull py sv size pageSize) :
    (exec m n s ((sv.worker m).forward py method c slot).1).CallsFull py sv size pageSize := by
  intro call hcall
  rcases exec_calls _ s call hcall with hcall | ⟨l, dst, hop, rfl⟩
  · exact h call hcall
  · obtain ⟨hl, hindexer⟩ := indexer_of_mem_runLayers method c _ slot hop
    exact fullLength_of_indexer hl hindexer size pageSize

/-! ## Every interleaving -/

/-- Every captured graph is what some pass of its model asked for. -/
def State.GraphsOfPasses (py : Casing) (sv : Server) (s : State) : Prop :=
  ∀ g ∈ s.graphs, ∃ method c slot, g.ops = ((sv.worker g.model).forward py method c slot).1

theorem exec_graphs {m : Model} {n : ℕ} : ∀ (ops : List Op) (s : State), (exec m n s ops).graphs = s.graphs
  | [], _ => rfl
  | op :: ops, s => by
    have hop : (execOp m n s op).graphs = s.graphs := by cases op <;> rfl
    exact (exec_graphs ops (execOp m n s op)).trans hop

/-- What each step preserves, for a property of states that each pass of either model keeps. -/
theorem step_invariant {P : State → Prop}
    (hP : ∀ m method c n slot s, P s → P (exec m n s ((sv.worker m).forward py method c slot).1))
    (hfree : ∀ s slot passes graphs, P s → P { s with slot, passes, graphs }) (s : State) (e : Event)
    (h : P s ∧ s.GraphsOfPasses py sv) : P (sv.step py s e) ∧ (sv.step py s e).GraphsOfPasses py sv := by
  obtain ⟨hs, hg⟩ := h
  cases e with
  | eager m method =>
    refine ⟨hP m method _ _ _ _ (hfree s _ _ s.graphs hs), fun g hmem => hg g ?_⟩
    rwa [Server.step, exec_graphs] at hmem
  | capture m method =>
    refine ⟨hfree s _ _ _ hs, fun g hmem => ?_⟩
    rcases List.mem_append.mp hmem with hmem | hmem
    · exact hg g hmem
    · obtain rfl := List.mem_singleton.mp hmem
      exact ⟨method, s.passes, s.slot, rfl⟩
  | replay g =>
    rw [Server.step]
    rcases hget : s.graphs[g]? with _ | graph
    · exact ⟨hs, hg⟩
    · obtain ⟨method, c, slot, hops⟩ := hg graph (List.mem_of_getElem? hget)
      refine ⟨?_, fun g' hmem => hg g' ?_⟩
      · simp only [hops]
        exact hP graph.model method c _ slot _ (hfree s s.slot _ s.graphs hs)
      · simpa only [exec_graphs] using hmem


/-- What each pass keeps holds after every run. -/
theorem run_invariant {P : State → Prop}
    (hP : ∀ m method c n slot s, P s → P (exec m n s ((sv.worker m).forward py method c slot).1))
    (hfree : ∀ s slot passes graphs, P s → P { s with slot, passes, graphs }) (h0 : P State.init) (es : List Event) :
    P (sv.run py es) :=
  (StatesHold.of_invariant (step_invariant hP hfree) ⟨h0, fun _ hg => absurd hg List.not_mem_nil⟩ es).last.1

/-- Where both models start with a Full layer, every read of every run finds its own indices. -/
theorem run_readsOwn (hlead : ∀ m, (sv.worker m).LeadsFull py) (es : List Event) : (sv.run py es).ReadsOwn py sv :=
  run_invariant (fun m method c n slot _ h => exec_forward (hlead m) method c n slot h) (fun _ _ _ _ h => h)
    (fun _ hr => absurd hr List.not_mem_nil) es

/-- In every run each indexer finds a buffer over all pages. -/
theorem run_callsFull (size pageSize : ℕ) (es : List Event) : (sv.run py es).CallsFull py sv size pageSize :=
  run_invariant (fun _ method c n slot _ h => exec_forward_calls method c n slot h) (fun _ _ _ _ h => h)
    (fun _ hcall => absurd hcall List.not_mem_nil) es

/-- The device forgets no read. -/
theorem mem_exec_reads {m : Model} {n : ℕ} {r : Read} : ∀ (ops : List Op) (s : State), r ∈ s.reads →
    r ∈ (exec m n s ops).reads
  | [], _, h => h
  | op :: ops, s, h => by
    refine mem_exec_reads ops (execOp m n s op) ?_
    cases op with
    | indexer l dst => exact h
    | read l src => exact List.mem_append_left _ h

/-- A pass that starts with a Shared layer reads there what no layer of the pass wrote. -/
theorem exists_read_of_not_leadsFull {m : Model} (hlead : ¬ (sv.worker m).LeadsFull py) :
    ∃ r ∈ (sv.run py [.eager m .mla]).reads, r.model = m ∧ r.layer = (sv.worker m).startLayer := by
  simp only [Worker.LeadsFull, not_forall] at hlead
  obtain ⟨hw, hlt, hown⟩ := hlead
  have hl : ¬ ((sv.worker m).layer py (sv.worker m).startLayer).indexer := fun h => hown (indexer_layer.mp h).2
  obtain ⟨k, hk⟩ : ∃ k, (sv.worker m).endLayer - (sv.worker m).startLayer = k + 1 :=
    ⟨_, (Nat.sub_add_cancel (by omega)).symm⟩
  have hops : ∃ rest, ((sv.worker m).forward py .mla 0 none).1 = .read (sv.worker m).startLayer none :: rest := by
    rw [Worker.forward, Worker.layerIds, hk, List.range'_succ, Worker.runLayers, absorb_shared hw hl]
    exact ⟨_, rfl⟩
  obtain ⟨rest, hops⟩ := hops
  refine ⟨⟨m, 0, (sv.worker m).startLayer, none⟩, ?_, rfl, rfl⟩
  show _ ∈ (exec m 0 _ ((sv.worker m).forward py .mla 0 none).1).reads
  rw [hops]
  exact mem_exec_reads rest (execOp m 0 _ _) List.mem_cons_self

/-- **Handing over.** In every interleaving of passes of the target and of the draft each Shared layer reads what the
nearest Full layer before it picked in the same pass, and each indexer finds a buffer over all pages, exactly when both
models start with a layer that owns an indexer. -/
theorem handover_iff (py : Casing) (sv : Server) (size pageSize : ℕ) :
    (∀ es : List Event, (∀ r ∈ (sv.run py es).reads, r.Own py sv) ∧
      ∀ call ∈ (sv.run py es).calls, call.FullLength py sv size pageSize) ↔
    ∀ m, (sv.worker m).LeadsFull py := by
  constructor
  · intro h m
    by_contra hlead
    obtain ⟨r, hr, rfl, hlayer⟩ := exists_read_of_not_leadsFull hlead
    -- no layer of the model comes before its first one
    obtain ⟨j, ⟨hstart, hj, -⟩, -⟩ := (h [.eager r.model .mla]).1 r hr
    omega
  · exact fun hlead es => ⟨run_readsOwn hlead es, run_callsFull size pageSize es⟩

/-- The target on one pipeline rank and its NEXTN layer both start at layer 0 of one pattern. -/
theorem withNextn_leadsFull_iff (py : Casing) {config : PretrainedConfig} (hnsa : isDeepseekNsa config)
    (hrank : config.qLoraRank.isSome) (hlayers : 0 < config.numHiddenLayers) :
    (∀ m, ((Server.withNextn config).worker m).LeadsFull py) ↔ nsaLayerHasOwnIndexer py config 0 := by
  constructor
  · exact fun h => h .target ⟨hnsa, hrank⟩ hlayers
  · rintro hown (_ | _) - -
    · exact hown
    · exact hown

/-- A model of eight layers with the uniform schedule from its default offset, 0. -/
def uniformFromZero : PretrainedConfig where
  architectures := some ["GlmMoeDsaForCausalLM"]
  indexTopk := some 2048
  indexTopkPattern := none
  indexerTypes := none
  indexTopkFreq := some 4
  indexSkipTopkOffset := none
  numHiddenLayers := 8
  qLoraRank := some 2048

/-- From offset 0 layer 0 finds nothing in the first pass of the server, and what the first pass left in the second. -/
theorem uniformFromZero_reads_other :
    let py : Casing := ⟨String.toUpper, String.toLower⟩
    let sv := Server.withNextn uniformFromZero
    ⟨.target, 0, 0, none⟩ ∈ (sv.run py [.eager .target .mla]).reads ∧
    ⟨.target, 1, 0, some ⟨0, 7⟩⟩ ∈ (sv.run py [.eager .target .mla, .eager .target .mla]).reads ∧
    ¬ ∀ es : List Event, (∀ r ∈ (sv.run py es).reads, r.Own py sv) ∧
      ∀ call ∈ (sv.run py es).calls, call.FullLength py sv 4096 64 := by
  intro py sv
  refine ⟨by decide +kernel, by decide +kernel, fun h => ?_⟩
  obtain ⟨j, ⟨-, hj, -⟩, -⟩ := (h [.eager .target .mla]).1 ⟨.target, 0, 0, none⟩ (by decide +kernel)
  exact Nat.not_lt_zero j hj

end Handover

end ExpertServe.IndexShare
