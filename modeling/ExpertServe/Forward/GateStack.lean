import Mathlib.Algebra.BigOperators.Group.List.Basic
import Mathlib.Algebra.Order.Ring.Int
import Mathlib.Data.List.GetD
import Mathlib.Data.List.Sort
import Mathlib.Data.Set.Basic
import Mathlib.Tactic.Common

/-!
# Stacked and unstacked gates

The fused predictor applies the gate of a later layer to the hidden state of this one. With the gates stacked a layer
reads both gates as one slice of the stack, linked when the weights are loaded; without, the later layer is looked up in
the registry on the first forward.

* `fuseGates`: the stack, and which layers share a product with their successor;
* `forwardNormal`: the gate of a layer and the launch of the predictor, on either path;
* `Layer.Linked`: what holds of a layer whatever constructions and forwards came before;
* `mem_forwardNormal_launches`, `forwardNormal_routerLogits`: one call, from this;
* `samePredictions_iff`: exactly when the two paths launch the same predictions and leave the router logits alone.
-/

namespace ExpertServe.GateStack

variable {α : Type*}

/-! ## Data -/

/-- `gate.weight`: for each expert a row of `hidden` entries. -/
@[ext] structure Weight (α : Type*) where
  hidden : ℕ
  rows : List (List α)

namespace Weight

def shape (w : Weight α) : ℕ × ℕ := (w.rows.length, w.hidden)

/-- `w[a:b]`. -/
def slice (w : Weight α) (a b : ℕ) : Weight α := ⟨w.hidden, (w.rows.take b).drop a⟩

end Weight

/-- The products a gate is computed with, each rounded in its own way. -/
structure Gemms (α : Type*) where
  /-- An entry of `F.linear`, rounded to the weight's type. -/
  dot : List α → List α → α
  /-- `weight_packed_linear`, with the AMX backend. -/
  weightPackedLinear : Option (List (List α) → Weight α → List (List α))
  enableDeterministicInference : Bool
  /-- `dsv3_router_gemm`, `aiter_dsv3_router_gemm` or `linear_bf16_fp32`, by the shapes. -/
  routerGemm : List (List α) → Weight α → List (List α)

/-- `F.linear(hidden_states, w)`, row by row. -/
def Gemms.linear (g : Gemms α) (hiddenStates : List (List α)) (w : Weight α) : List (List α) :=
  hiddenStates.map fun h => w.rows.map fun row => g.dot h row

/-- `MoEGate.forward`. -/
def Gemms.gate (g : Gemms α) (hiddenStates : List (List α)) (w : Weight α) : List (List α) :=
  match g.weightPackedLinear with
  | some packed => packed hiddenStates w
  | none => if g.enableDeterministicInference then g.linear hiddenStates w else g.routerGemm hiddenStates w

/-- An MoE module as it is constructed. -/
structure Moe (α : Type*) where
  layerId : ℕ
  isNextn : Bool
  gate : Weight α
  correctionBias : Option (List α)
  /-- Its `quant_method` has `pf_issue_fused` and a `pf_table`. -/
  prefetches : Bool

/-- An MoE module with its links to the layer it predicts. -/
structure Layer (α : Type*) extends Moe α where
  fusedGateW : Option (Weight α)
  fusedNext : Option (Moe α)
  fusedLinked : Bool

structure PredEnv where
  fused : Bool
  fusedStack : Bool
  fusedDepth : ℕ
  depth_pos : 1 ≤ fusedDepth
  /-- `KT_PRED_LAYER_STRIDE` as it is given. -/
  layerStride : ℤ
  tmax : ℤ
  topk : ℕ
  pmax : ℕ

/-- `_KT_PRED_LAYER_STRIDE`. -/
def PredEnv.stride (env : PredEnv) : ℕ := (max 1 env.layerStride).toNat

/-- What `pf_issue_fused` of the target is called with, and by which layer. -/
structure Launch (α : Type*) where
  layer : ℕ
  target : Moe α
  logits : List (List α)
  bias : List α
  colOff : ℕ
  topk : ℕ
  topP : ℕ

namespace Launch

def pair (l : Launch α) : ℕ × ℕ := (l.layer, l.target.layerId)

/-- The columns the kernel reads: one for each expert of the target. -/
def columns (l : Launch α) : List (List α) :=
  l.logits.map fun row => (row.drop l.colOff).take l.target.gate.rows.length

end Launch

/-! ## The registry and the stack -/

/-- `_KT_PRED_MOE[m.layer_id] = m`. -/
def register (moe : List (Moe α)) (m : Moe α) : List (Moe α) := moe.filter (·.layerId ≠ m.layerId) ++ [m]

/-- `_KT_PRED_MOE.get(lid)`. -/
def lookup (moe : List (Moe α)) (lid : ℕ) : Option (Moe α) := moe.find? (·.layerId = lid)

def Moe.construct (m : Moe α) : Layer α := { m with fusedGateW := none, fusedNext := none, fusedLinked := false }

/-- Module `i` with its slice of the stack, where its successor can share a product with it. -/
def Moe.fuse (stride nExp : ℕ) (stack : Weight α) (mods : List (Moe α)) (i : ℕ) (m : Moe α) : Layer α :=
  match mods[i + 1]? with
  | some next =>
    -- the two blocks have to be adjacent
    if m.layerId % stride = 0 ∧ next.layerId = m.layerId + 1 then
      { m.construct with
        fusedGateW := some (stack.slice (i * nExp) ((i + 2) * nExp))
        fusedNext := some next }
    else m.construct
  | none => m.construct

/-- The registered modules with their gates stacked and linked; `none` where they stay unfused. -/
def fuseGates (stride : ℕ) (moe : List (Moe α)) : Option (List (Layer α)) :=
  let mods := (moe.filter fun m => !m.isNextn).insertionSort fun m m' => m.layerId ≤ m'.layerId
  match mods with
  | [] | [_] => none
  | m₀ :: _ :: _ =>
    if mods.any fun m => m.gate.shape ≠ m₀.gate.shape then none
    else
      let nExp := m₀.gate.rows.length
      let stack : Weight α := ⟨m₀.gate.hidden, mods.flatMap fun m => m.gate.rows⟩
      let mods := mods.mapIdx fun i m => { m with gate := stack.slice (i * nExp) ((i + 1) * nExp) }
      some (mods.mapIdx (Moe.fuse stride nExp stack mods))

/-! ## A call -/

section Call

/-- What `forward_normal` leaves in the layer, its router logits, and the predictor if it is launched. -/
structure Called (α : Type*) where
  layer : Layer α
  routerLogits : List (List α)
  launches : List (Launch α)

/-- `_kt_pred_fused_emit`. -/
def predFusedEmit [Zero α] (env : PredEnv) (x : Layer α) (both : List (List α)) (nExp : ℕ) (colOff : Option ℕ) :
    List (Launch α) :=
  match x.fusedNext with
  | none => []
  | some nxt =>
    if nxt.prefetches then
      [{ layer := x.layerId
         target := nxt
         logits := both
         bias := nxt.correctionBias.getD (List.replicate nExp 0)
         colOff := colOff.getD nExp
         topk := env.topk
         topP := env.pmax }]
    else []

/-- The link of the unstacked path, made once. -/
def Layer.link (env : PredEnv) (moe : List (Moe α)) (x : Layer α) : Layer α :=
  if x.fusedLinked then x
  else
    { x with
      fusedNext := if x.layerId % env.stride = 0 then lookup moe (x.layerId + env.fusedDepth) else none
      fusedLinked := true }

variable [Zero α] in
def forwardNormal (g : Gemms α) (env : PredEnv) (moe : List (Moe α)) (x : Layer α) (hiddenStates : List (List α)) :
    Called α :=
  if hiddenStates.length = 0 then ⟨x, [], []⟩
  else
    match x.fusedGateW with
    | none =>
      if env.fused ∧ (hiddenStates.length : ℤ) ≤ env.tmax ∧ ¬ x.isNextn then
        let x := x.link env moe
        let launches :=
          match x.fusedNext with
          | some nxt =>
            if nxt.isNextn then []
            else predFusedEmit env x (g.linear hiddenStates nxt.gate) nxt.gate.rows.length (some 0)
          | none => []
        ⟨x, g.gate hiddenStates x.gate, launches⟩
      else ⟨x, g.gate hiddenStates x.gate, []⟩
    | some fw =>
      if (hiddenStates.length : ℤ) ≤ env.tmax then
        let both := g.linear hiddenStates fw
        let ne := fw.rows.length / 2
        ⟨x, both.map fun row => row.take ne, predFusedEmit env x both ne none⟩
      else ⟨x, g.gate hiddenStates x.gate, []⟩

end Call

/-! ## The server -/

/-- The MoE layers of the model, in the order of their ids. -/
structure Net (α : Type*) where
  layers : List (Moe α)
  target : ∀ m ∈ layers, m.isNextn = false
  sorted : layers.Pairwise fun m m' => m.layerId < m'.layerId

/-- A NEXTN layer. It is built with id 0, or one that no layer of the model has. -/
structure Draft (net : Net α) where
  moe : Moe α
  isNextn : moe.isNextn = true
  layerId : moe.layerId = 0 ∨ ∀ m ∈ net.layers, m.layerId ≠ moe.layerId

/-- The modules that exist and `_KT_PRED_MOE`. -/
structure Server (α : Type*) where
  modules : List (Layer α)
  registry : List (Moe α)

namespace Server

def construct (env : PredEnv) (s : Server α) (m : Moe α) : Server α :=
  ⟨s.modules ++ [m.construct], if env.fused then register s.registry m else s.registry⟩

/-- The model constructed and its weights loaded. The modules that are stacked are all there are. -/
def load (env : PredEnv) (net : Net α) : Server α :=
  let s := net.layers.foldl (construct env) ⟨[], []⟩
  if env.fused ∧ env.fusedStack then
    match fuseGates env.stride s.registry with
    | some layers => ⟨layers, layers.map (·.toMoe)⟩
    | none => s
  else s

variable [Zero α]

/-- A forward: each module called once, module `i` on `hiddenStates i`. -/
def calls (g : Gemms α) (env : PredEnv) (s : Server α) (hiddenStates : ℕ → List (List α)) : List (Called α) :=
  s.modules.mapIdx fun i x => forwardNormal g env s.registry x (hiddenStates i)

end Server

inductive Event (net : Net α) where
  | draft (draft : Draft net)
  | forward (hiddenStates : ℕ → List (List α))

section Run

variable [Zero α] {net : Net α}

def Server.step (g : Gemms α) (env : PredEnv) (s : Server α) : Event net → Server α
  | .draft draft => s.construct env draft.moe
  | .forward hiddenStates => { s with modules := (s.calls g env hiddenStates).map (·.layer) }

def run (g : Gemms α) (env : PredEnv) (net : Net α) (events : List (Event net)) : Server α :=
  events.foldl (Server.step g env) (Server.load env net)

def launches (g : Gemms α) (env : PredEnv) (s : Server α) (hiddenStates : ℕ → List (List α)) : List (Launch α) :=
  (s.calls g env hiddenStates).flatMap (·.launches)

/-- The predicting layers and the layers they predict. -/
def pairs (g : Gemms α) (env : PredEnv) (s : Server α) (hiddenStates : ℕ → List (List α)) : Set (ℕ × ℕ) :=
  { p | ∃ l ∈ launches g env s hiddenStates, l.pair = p }

/-- Each launch reads the product of a layer's hidden states with the gate of its target. -/
def OwnColumns (g : Gemms α) (net : Net α) (hiddenStates : ℕ → List (List α)) (launches : List (Launch α)) : Prop :=
  ∀ l ∈ launches, ∃ i m, net.layers[i]? = some m ∧ m.layerId = l.layer ∧
    ∃ t ∈ net.layers, t.layerId = l.target.layerId ∧ l.columns = g.linear (hiddenStates i) t.gate

/-- The drafts that are constructed along the events. -/
def drafts (events : List (Event net)) : List (Moe α) :=
  events.filterMap fun
    | .draft draft => some draft.moe
    | .forward _ => none

end Run

/-! ## What a layer predicts -/

def Net.get (net : Net α) (lid : ℕ) : Option (Moe α) := lookup net.layers lid

/-- The gates can be stacked. -/
def Stackable (net : Net α) : Prop :=
  2 ≤ net.layers.length ∧ ∀ m ∈ net.layers, ∀ m' ∈ net.layers, m.gate.shape = m'.gate.shape

/-- `m` predicts at all, and `t` is the layer `ahead` ids later. -/
def Predicts (env : PredEnv) (net : Net α) (ahead : ℕ) (m t : Moe α) : Prop :=
  m.layerId % env.stride = 0 ∧ t ∈ net.layers ∧ t.layerId = m.layerId + ahead

/-- The layer shares a product with its successor. -/
def Shares (env : PredEnv) (net : Net α) (m : Moe α) : Prop :=
  env.fusedStack = true ∧ Stackable net ∧ ∃ next, Predicts env net 1 m next

/-- What holds of each module in every state: it is linked to its successor, or the registry will give what it gave. -/
structure Layer.Linked (env : PredEnv) (net : Net α) (x : Layer α) : Prop where
  mem : x.isNextn = false → x.toMoe ∈ net.layers
  ofNextn : x.isNextn = true → x.fusedGateW = none
  shared : ∀ fw, x.fusedGateW = some fw → env.fused = true ∧ Shares env net x.toMoe ∧ ∃ next, x.fusedNext = some next ∧
    Predicts env net 1 x.toMoe next ∧ fw.rows = x.gate.rows ++ next.gate.rows
  alone : x.fusedGateW = none → x.isNextn = false → env.fused = true → ¬ Shares env net x.toMoe
  linked : x.fusedGateW = none → x.fusedLinked = true → ∀ t, t.isNextn = false →
    (x.fusedNext = some t ↔ Predicts env net env.fusedDepth x.toMoe t)

/-- The registry gives the layers of the model under their own ids, but perhaps not layer 0. -/
def Registered (net : Net α) (moe : List (Moe α)) : Prop :=
  ∀ t : Moe α, t.isNextn = false → ∀ lid, 1 ≤ lid → (lookup moe lid = some t ↔ t ∈ net.layers ∧ t.layerId = lid)

/-! ## The registry -/

theorem Net.eq_of_layerId (net : Net α) {m m' : Moe α} (hm : m ∈ net.layers) (hm' : m' ∈ net.layers)
    (h : m.layerId = m'.layerId) : m = m' := by
  obtain ⟨i, hi, rfl⟩ := List.mem_iff_getElem.mp hm
  obtain ⟨j, hj, rfl⟩ := List.mem_iff_getElem.mp hm'
  have hlt := List.pairwise_iff_getElem.mp net.sorted
  obtain hij | rfl | hji := Nat.lt_trichotomy i j
  · have := hlt i j hi hj hij
    omega
  · rfl
  · have := hlt j i hj hi hji
    omega

theorem lookup_eq_some {moe : List (Moe α)} (hinj : ∀ m ∈ moe, ∀ m' ∈ moe, m.layerId = m'.layerId → m = m')
    {lid : ℕ} {t : Moe α} : lookup moe lid = some t ↔ t ∈ moe ∧ t.layerId = lid := by
  constructor
  · intro h
    refine ⟨List.mem_of_find?_eq_some h, ?_⟩
    simpa using List.find?_some h
  · rintro ⟨hmem, hid⟩
    cases hfind : lookup moe lid with
    | none =>
      have := List.find?_eq_none.mp hfind t hmem
      simp [hid] at this
    | some t' =>
      have hid' : t'.layerId = lid := by simpa using List.find?_some hfind
      rw [hinj t' (List.mem_of_find?_eq_some hfind) t hmem (by rw [hid', hid])]

theorem registered_layers (net : Net α) : Registered net net.layers := fun _ _ _ _ =>
  lookup_eq_some fun _ hm _ hm' => net.eq_of_layerId hm hm'

theorem lookup_register (moe : List (Moe α)) (m : Moe α) (lid : ℕ) :
    lookup (register moe m) lid = if m.layerId = lid then some m else lookup moe lid := by
  unfold lookup register
  rw [List.find?_append, List.find?_filter]
  by_cases h : m.layerId = lid
  · have : moe.find? (fun x => decide (decide (x.layerId ≠ m.layerId) = true ∧ decide (x.layerId = lid) = true)) =
        none := by
      rw [List.find?_eq_none]
      intro x _
      simp only [decide_eq_true_eq]
      omega
    rw [this]
    simp [h]
  · have : (fun x : Moe α => decide (decide (x.layerId ≠ m.layerId) = true ∧ decide (x.layerId = lid) = true)) =
        fun x => decide (x.layerId = lid) := by
      funext x
      simp only [decide_eq_true_eq, decide_eq_decide]
      omega
    rw [this]
    simp [h]

theorem Registered.draft {net : Net α} {moe : List (Moe α)} (h : Registered net moe) (draft : Draft net) :
    Registered net (register moe draft.moe) := by
  intro t ht lid hlid
  rw [lookup_register]
  split
  · next hid =>
    constructor
    · rintro ⟨⟩
      rw [draft.isNextn] at ht
      cases ht
    · rintro ⟨hmem, rfl⟩
      rcases draft.layerId with h0 | hfresh
      · omega
      · exact absurd hid.symm (hfresh t hmem)
  · exact h t ht lid hlid

/-! ## One call -/

section Spec

variable {env : PredEnv} {net : Net α} {moe : List (Moe α)} {x : Layer α}

/-- The layer `t` that `m` predicts: its successor where they share a product, the one at the depth elsewhere. -/
def Reaches (env : PredEnv) (net : Net α) (m t : Moe α) : Prop :=
  Shares env net m ∧ Predicts env net 1 m t ∨ ¬ Shares env net m ∧ Predicts env net env.fusedDepth m t

/-- The predictor runs for a layer on so many tokens. -/
def Runs (env : PredEnv) (m : Moe α) (tokens : ℕ) : Prop :=
  env.fused = true ∧ m.isNextn = false ∧ 0 < tokens ∧ (tokens : ℤ) ≤ env.tmax

@[simp] theorem Layer.link_toMoe : (x.link env moe).toMoe = x.toMoe := by
  unfold Layer.link
  split <;> rfl

@[simp] theorem Layer.link_fusedGateW : (x.link env moe).fusedGateW = x.fusedGateW := by
  unfold Layer.link
  split <;> rfl

theorem Layer.Linked.link_next (hx : x.Linked env net) (hmoe : Registered net moe) (hw : x.fusedGateW = none)
    (t : Moe α) (ht : t.isNextn = false) :
    (x.link env moe).fusedNext = some t ↔ Predicts env net env.fusedDepth x.toMoe t := by
  unfold Layer.link
  split
  · next hlinked => exact hx.linked hw hlinked t ht
  · have hget := hmoe t ht (x.layerId + env.fusedDepth) (by have := env.depth_pos; omega)
    unfold Predicts
    by_cases hstride : x.layerId % env.stride = 0
    · simp [hstride, hget]
    · simp [hstride]

theorem Layer.Linked.link (hx : x.Linked env net) (hmoe : Registered net moe) (hw : x.fusedGateW = none) :
    (x.link env moe).Linked env net where
  mem h := by
    rw [Layer.link_toMoe] at h ⊢
    exact hx.mem h
  ofNextn _ := by rw [Layer.link_fusedGateW, hw]
  shared fw hfw := by
    rw [Layer.link_fusedGateW, hw] at hfw
    cases hfw
  alone _ h hf := by
    rw [Layer.link_toMoe] at h ⊢
    exact hx.alone hw h hf
  linked _ _ t ht := by
    rw [Layer.link_toMoe]
    exact hx.link_next hmoe hw t ht

theorem Predicts.isNextn {n : ℕ} {m t : Moe α} (h : Predicts env net n m t) : t.isNextn = false := net.target t h.2.1

theorem Shares.rows_length {m next : Moe α} (h : Shares env net m) (hm : m ∈ net.layers)
    (hnext : Predicts env net 1 m next) : next.gate.rows.length = m.gate.rows.length := by
  obtain ⟨-, hstack, -⟩ := h
  have := hstack.2 next hnext.2.1 m hm
  exact congrArg Prod.fst this

/-- The first half of a stacked slice is the layer's own gate. -/
theorem Layer.Linked.half (hx : x.Linked env net) (hn : x.isNextn = false) {fw : Weight α}
    (hw : x.fusedGateW = some fw) : fw.rows.length / 2 = x.gate.rows.length := by
  obtain ⟨-, hshares, next, -, hnext, hrows⟩ := hx.shared fw hw
  have hlen := hshares.rows_length (hx.mem hn) hnext
  rw [hrows, List.length_append, hlen]
  omega

theorem mem_predFusedEmit [Zero α] {both : List (List α)} {nExp : ℕ} {colOff : Option ℕ} {l : Launch α}
    (h : l ∈ predFusedEmit env x both nExp colOff) :
    x.fusedNext = some l.target ∧ l.target.prefetches = true ∧ l.layer = x.layerId ∧ l.logits = both ∧
      l.colOff = colOff.getD nExp := by
  unfold predFusedEmit at h
  split at h
  · simp at h
  · next nxt hnext =>
    split at h
    · next hpf =>
      rw [List.mem_singleton] at h
      subst h
      exact ⟨hnext, hpf, rfl, rfl, rfl⟩
    · simp at h

variable (env) in
theorem exists_predFusedEmit [Zero α] {t : Moe α} (hnext : x.fusedNext = some t) (hpf : t.prefetches = true)
    (both : List (List α)) (nExp : ℕ) (colOff : Option ℕ) :
    ∃ l ∈ predFusedEmit env x both nExp colOff, l.layer = x.layerId ∧ l.target = t := by
  unfold predFusedEmit
  rw [hnext]
  simp [hpf]

section Linear

variable {g : Gemms α}

/-- A slice of two gates gives the logits of the first, then those of the second. -/
theorem linear_stacked (g : Gemms α) (h : List (List α)) {fw w w' : Weight α} (hfw : fw.rows = w.rows ++ w'.rows) :
    (g.linear h fw).map (·.take w.rows.length) = g.linear h w ∧
      (g.linear h fw).map (fun row => (row.drop w.rows.length).take w'.rows.length) = g.linear h w' := by
  unfold Gemms.linear
  rw [hfw]
  constructor
  · rw [List.map_map]
    refine List.map_congr_left fun x _ => ?_
    simp
  · rw [List.map_map]
    refine List.map_congr_left fun x _ => ?_
    simp

/-- Read from the start the logits of a gate are its own. -/
theorem linear_alone (g : Gemms α) (h : List (List α)) (w : Weight α) :
    (g.linear h w).map (fun row => (row.drop 0).take w.rows.length) = g.linear h w := by
  unfold Gemms.linear
  rw [List.map_map]
  refine List.map_congr_left fun x _ => ?_
  simp

/-! The three ways through `forward_normal`. -/

variable [Zero α]

theorem forwardNormal_plain {h : List (List α)} (hrun : ¬ Runs env x.toMoe h.length) (hx : x.Linked env net) :
    forwardNormal g env moe x h = ⟨x, if h.length = 0 then [] else g.gate h x.gate, []⟩ := by
  unfold Runs at hrun
  unfold forwardNormal
  by_cases h0 : h.length = 0
  · rw [if_pos h0, if_pos h0]
  · rw [if_neg h0, if_neg h0]
    split
    · next hw =>
      rw [if_neg]
      rintro ⟨hf, ht, hn⟩
      exact hrun ⟨hf, by simpa using hn, by omega, ht⟩
    · next fw hw =>
      rw [if_neg]
      intro ht
      obtain ⟨hf, -⟩ := hx.shared fw hw
      refine hrun ⟨hf, ?_, by omega, ht⟩
      rw [Bool.eq_false_iff]
      intro hn
      rw [hx.ofNextn hn] at hw
      cases hw

theorem forwardNormal_alone {h : List (List α)} (hrun : Runs env x.toMoe h.length) (hw : x.fusedGateW = none) :
    forwardNormal g env moe x h = ⟨x.link env moe, g.gate h x.gate,
      match (x.link env moe).fusedNext with
      | some nxt =>
        if nxt.isNextn then []
        else predFusedEmit env (x.link env moe) (g.linear h nxt.gate) nxt.gate.rows.length (some 0)
      | none => []⟩ := by
  obtain ⟨hf, hn, h0, ht⟩ := hrun
  have hgate : (x.link env moe).gate = x.gate := congrArg Moe.gate Layer.link_toMoe
  unfold forwardNormal
  rw [if_neg (by omega), hw]
  simp only [hf, ht, hn, true_and, Bool.false_eq_true, not_false_eq_true, if_true, hgate]

theorem forwardNormal_shared {h : List (List α)} (hrun : Runs env x.toMoe h.length) {fw : Weight α}
    (hw : x.fusedGateW = some fw) :
    forwardNormal g env moe x h = ⟨x, (g.linear h fw).map (·.take (fw.rows.length / 2)),
      predFusedEmit env x (g.linear h fw) (fw.rows.length / 2) none⟩ := by
  obtain ⟨-, -, h0, ht⟩ := hrun
  unfold forwardNormal
  rw [if_neg (by omega), hw]
  simp only [ht, if_true]

open Classical in
/-- The router logits of a layer: out of the shared product where it shares one and the predictor runs, its gate's
elsewhere. -/
noncomputable def logits (g : Gemms α) (env : PredEnv) (net : Net α) (m : Moe α) (h : List (List α)) : List (List α) :=
  if Runs env m h.length ∧ Shares env net m then g.linear h m.gate else if h.length = 0 then [] else g.gate h m.gate

theorem forwardNormal_routerLogits (hx : x.Linked env net) (h : List (List α)) :
    (forwardNormal g env moe x h).routerLogits = logits g env net x.toMoe h := by
  unfold logits
  by_cases hrun : Runs env x.toMoe h.length
  · have hpos : h.length ≠ 0 := by
      have := hrun.2.2.1
      omega
    cases hw : x.fusedGateW with
    | none =>
      have hnot : ¬ (Runs env x.toMoe h.length ∧ Shares env net x.toMoe) :=
        fun hs => hx.alone hw hrun.2.1 hrun.1 hs.2
      rw [forwardNormal_alone hrun hw, if_neg hnot, if_neg hpos]
    | some fw =>
      obtain ⟨-, hshares, next, -, -, hrows⟩ := hx.shared fw hw
      rw [forwardNormal_shared hrun hw, hx.half hrun.2.1 hw, if_pos ⟨hrun, hshares⟩]
      exact (linear_stacked g h hrows).1
  · have hnot : ¬ (Runs env x.toMoe h.length ∧ Shares env net x.toMoe) := fun hs => hrun hs.1
    rw [forwardNormal_plain hrun hx, if_neg hnot]

/-! A call launches the predictor for the layer it reaches, on that layer's own gate. -/

theorem mem_forwardNormal_launches (hx : x.Linked env net) (hmoe : env.fused = true → Registered net moe)
    {h : List (List α)} {l : Launch α} (hl : l ∈ (forwardNormal g env moe x h).launches) :
    Runs env x.toMoe h.length ∧ l.layer = x.layerId ∧ l.target.prefetches = true ∧ Reaches env net x.toMoe l.target ∧
      l.columns = g.linear h l.target.gate := by
  by_cases hrun : Runs env x.toMoe h.length
  · refine ⟨hrun, ?_⟩
    cases hw : x.fusedGateW with
    | none =>
      rw [forwardNormal_alone hrun hw] at hl
      dsimp only at hl
      split at hl
      · next nxt hnxt =>
        split at hl
        · simp at hl
        · next hn =>
          obtain ⟨hnext, hpf, hlayer, hlogits, hoff⟩ := mem_predFusedEmit hl
          rw [hnxt, Option.some_inj] at hnext
          rw [hnext] at hlogits hnxt hn
          have hpred := (hx.link_next (hmoe hrun.1) hw l.target (by simpa using hn)).mp hnxt
          refine ⟨by rw [hlayer, Layer.link_toMoe], hpf, .inr ⟨hx.alone hw hrun.2.1 hrun.1, hpred⟩, ?_⟩
          unfold Launch.columns
          rw [hlogits, hoff]
          exact linear_alone g h l.target.gate
      · simp at hl
    | some fw =>
      rw [forwardNormal_shared hrun hw] at hl
      obtain ⟨-, hshares, next, hnext', hpred, hrows⟩ := hx.shared fw hw
      obtain ⟨hnext, hpf, hlayer, hlogits, hoff⟩ := mem_predFusedEmit hl
      rw [hnext', Option.some_inj] at hnext
      subst hnext
      refine ⟨hlayer, hpf, .inl ⟨hshares, hpred⟩, ?_⟩
      unfold Launch.columns
      rw [hlogits, hoff, hx.half hrun.2.1 hw]
      exact (linear_stacked g h hrows).2
  · rw [forwardNormal_plain hrun hx] at hl
    simp at hl

theorem exists_forwardNormal_launch (hx : x.Linked env net) (hmoe : env.fused = true → Registered net moe)
    {h : List (List α)} (hrun : Runs env x.toMoe h.length) {t : Moe α} (ht : Reaches env net x.toMoe t)
    (hpf : t.prefetches = true) : ∃ l ∈ (forwardNormal g env moe x h).launches, l.layer = x.layerId ∧ l.target = t := by
  cases hw : x.fusedGateW with
  | none =>
    obtain ⟨hshares, -⟩ | ⟨-, hpred⟩ := ht
    · exact absurd hshares (hx.alone hw hrun.2.1 hrun.1)
    · have hnext := (hx.link_next (hmoe hrun.1) hw t hpred.isNextn).mpr hpred
      obtain ⟨l, hl, hlayer, htarget⟩ :=
        exists_predFusedEmit env hnext hpf (g.linear h t.gate) t.gate.rows.length (some 0)
      refine ⟨l, ?_, by rw [hlayer, Layer.link_toMoe], htarget⟩
      rw [forwardNormal_alone hrun hw]
      simpa [hnext, hpred.isNextn] using hl
  | some fw =>
    obtain ⟨-, hshares, next, hnext, hpred, -⟩ := hx.shared fw hw
    have heq : next = t := by
      obtain ⟨-, hpred'⟩ | ⟨hnot, -⟩ := ht
      · exact net.eq_of_layerId hpred.2.1 hpred'.2.1 (by rw [hpred.2.2, hpred'.2.2])
      · exact absurd hshares hnot
    rw [forwardNormal_shared hrun hw]
    exact exists_predFusedEmit env (heq ▸ hnext) hpf _ _ _

theorem forwardNormal_layer (hx : x.Linked env net) (hmoe : env.fused = true → Registered net moe) (h : List (List α)) :
    (forwardNormal g env moe x h).layer.toMoe = x.toMoe ∧ (forwardNormal g env moe x h).layer.Linked env net := by
  by_cases hrun : Runs env x.toMoe h.length
  · cases hw : x.fusedGateW with
    | none =>
      rw [forwardNormal_alone hrun hw]
      exact ⟨Layer.link_toMoe, hx.link (hmoe hrun.1) hw⟩
    | some fw =>
      rw [forwardNormal_shared hrun hw]
      exact ⟨rfl, hx⟩
  · rw [forwardNormal_plain hrun hx]
    exact ⟨rfl, hx⟩

end Linear

end Spec

/-! ## Loading -/

theorem take_flatMap_blocks {β γ : Type*} {f : β → List γ} {n : ℕ} {bs : List β} (h : ∀ b ∈ bs, (f b).length = n)
    (k : ℕ) :
    (bs.flatMap f).take (k * n) = (bs.take k).flatMap f := by
  induction bs generalizing k with
  | nil => simp
  | cons b bs ih =>
    cases k with
    | zero => simp
    | succ k =>
      rw [List.flatMap_cons, List.take_succ_cons, List.flatMap_cons, List.take_append, h b List.mem_cons_self,
        List.take_of_length_le (by rw [h b List.mem_cons_self, Nat.succ_mul]; omega), Nat.succ_mul, Nat.add_sub_cancel,
        ih fun c hc => h c (List.mem_cons_of_mem b hc)]

theorem drop_flatMap_blocks {β γ : Type*} {f : β → List γ} {n : ℕ} {bs : List β} (h : ∀ b ∈ bs, (f b).length = n)
    (k : ℕ) :
    (bs.flatMap f).drop (k * n) = (bs.drop k).flatMap f := by
  induction bs generalizing k with
  | nil => simp
  | cons b bs ih =>
    cases k with
    | zero => simp
    | succ k =>
      rw [List.flatMap_cons, List.drop_succ_cons, List.drop_append, h b List.mem_cons_self,
        List.drop_of_length_le (by rw [h b List.mem_cons_self, Nat.succ_mul]; omega), Nat.succ_mul, Nat.add_sub_cancel,
        ih fun c hc => h c (List.mem_cons_of_mem b hc), List.nil_append]

/-- Blocks `a` to `b` of a stack. -/
theorem slice_blocks {mods : List (Moe α)} {n : ℕ} (hidden : ℕ) (h : ∀ m ∈ mods, m.gate.rows.length = n) (a b : ℕ) :
    (Weight.slice ⟨hidden, mods.flatMap fun m => m.gate.rows⟩ (a * n) (b * n)).rows =
      ((mods.take b).drop a).flatMap fun m => m.gate.rows := by
  show ((mods.flatMap fun m => m.gate.rows).take (b * n)).drop (a * n) = _
  rw [take_flatMap_blocks h, drop_flatMap_blocks fun m hm => h m (List.mem_of_mem_take hm)]

theorem Net.sort_targets (net : Net α) :
    (net.layers.filter fun m => !m.isNextn).insertionSort (fun m m' => m.layerId ≤ m'.layerId) = net.layers := by
  rw [List.filter_eq_self.mpr fun m hm => by simp [net.target m hm]]
  exact (net.sorted.imp fun h => h.le).insertionSort_eq

/-- The layer after the `i`-th is the only one that can be its successor. -/
theorem Net.getElem?_successor (net : Net α) {i : ℕ} {m next : Moe α} (hm : net.layers[i]? = some m)
    (hnext : next ∈ net.layers) (hid : next.layerId = m.layerId + 1) : net.layers[i + 1]? = some next := by
  obtain ⟨hi, rfl⟩ := List.getElem?_eq_some_iff.mp hm
  obtain ⟨j, hj, rfl⟩ := List.mem_iff_getElem.mp hnext
  have hlt := List.pairwise_iff_getElem.mp net.sorted
  have hij : i < j := by
    by_contra hle
    rcases Nat.lt_or_eq_of_le (Nat.le_of_not_lt hle) with hji | rfl
    · have := hlt j i hj hi hji
      omega
    · omega
  have : j = i + 1 := by
    by_contra hne
    have h1 := hlt i (i + 1) hi (by omega) (by omega)
    have h2 := hlt (i + 1) j (by omega) hj (by omega)
    omega
  subst this
  exact List.getElem?_eq_getElem hj

section Fuse

variable {env : PredEnv} {net : Net α} {m₀ : Moe α}

/-- The gates are laid out again as they were. -/
theorem relay_eq (hshape : ∀ m ∈ net.layers, m.gate.shape = m₀.gate.shape) :
    net.layers.mapIdx (fun i m => { m with
      gate := Weight.slice ⟨m₀.gate.hidden, net.layers.flatMap fun m => m.gate.rows⟩ (i * m₀.gate.rows.length)
        ((i + 1) * m₀.gate.rows.length) }) = net.layers := by
  have hrows : ∀ m ∈ net.layers, m.gate.rows.length = m₀.gate.rows.length := fun m hm => congrArg Prod.fst (hshape m hm)
  refine List.ext_getElem (by simp) fun i hi hi' => ?_
  rw [List.getElem_mapIdx]
  have hgate : Weight.slice ⟨m₀.gate.hidden, net.layers.flatMap fun m => m.gate.rows⟩ (i * m₀.gate.rows.length)
      ((i + 1) * m₀.gate.rows.length) = net.layers[i].gate := by
    have hslice := slice_blocks m₀.gate.hidden hrows i (i + 1)
    rw [List.drop_take, List.drop_eq_getElem_cons hi', Nat.add_sub_cancel_left, List.take_succ_cons, List.take_zero,
      List.flatMap_singleton] at hslice
    have hhidden : m₀.gate.hidden = net.layers[i].gate.hidden :=
      (congrArg Prod.snd (hshape _ (List.getElem_mem hi'))).symm
    exact Weight.ext hhidden hslice
  rw [hgate]

/-- A layer on the stack is linked to its successor, or has none to share a product with. -/
theorem linked_fuse (hf : env.fused = true) (hs : env.fusedStack = true) (hstack : Stackable net)
    (hshape : ∀ m ∈ net.layers, m.gate.shape = m₀.gate.shape) {i : ℕ} {m : Moe α} (hm : net.layers[i]? = some m) :
    let stack : Weight α := ⟨m₀.gate.hidden, net.layers.flatMap fun m => m.gate.rows⟩
    let x := m.fuse env.stride m₀.gate.rows.length stack net.layers i
    x.toMoe = m ∧ x.Linked env net := by
  have hmem : m ∈ net.layers := List.mem_of_getElem? hm
  have hrows : ∀ m ∈ net.layers, m.gate.rows.length = m₀.gate.rows.length := fun m hm => congrArg Prod.fst (hshape m hm)
  have halone (h : ∀ next, net.layers[i + 1]? = some next →
      ¬ (m.layerId % env.stride = 0 ∧ next.layerId = m.layerId + 1)) :
      m.construct.Linked env net := by
    refine ⟨fun _ => hmem, fun _ => rfl, fun fw hfw => (by cases hfw), ?_, fun _ hlinked => (by cases hlinked)⟩
    rintro - - - ⟨-, -, next, hstride, hnext, hid⟩
    exact h next (net.getElem?_successor hm hnext hid) ⟨hstride, hid⟩
  unfold Moe.fuse
  cases hnext : net.layers[i + 1]? with
  | none => exact ⟨rfl, halone fun next h => by rw [hnext] at h; cases h⟩
  | some next =>
    by_cases hsite : m.layerId % env.stride = 0 ∧ next.layerId = m.layerId + 1
    · have hpred : Predicts env net 1 m next := ⟨hsite.1, List.mem_of_getElem? hnext, hsite.2⟩
      have hi : i + 1 < net.layers.length := (List.getElem?_eq_some_iff.mp hnext).1
      have hslice := slice_blocks m₀.gate.hidden hrows i (i + 2)
      rw [List.drop_take, List.drop_eq_getElem_cons (by omega), List.drop_eq_getElem_cons hi, Nat.add_sub_cancel_left,
        (List.getElem?_eq_some_iff.mp hm).2, (List.getElem?_eq_some_iff.mp hnext).2, List.take_succ_cons,
        List.take_succ_cons, List.take_zero, List.flatMap_cons, List.flatMap_singleton] at hslice
      simp only [if_pos hsite]
      refine ⟨rfl, fun _ => hmem, fun hn => ?_, ?_, fun hw => (by cases hw), fun hw => (by cases hw)⟩
      · have hn' : m.isNextn = true := hn
        rw [net.target m hmem] at hn'
        cases hn'
      · rintro fw ⟨⟩
        exact ⟨hf, ⟨hs, hstack, next, hpred⟩, next, rfl, hpred, hslice⟩
    · simp only [if_neg hsite]
      refine ⟨rfl, halone fun next' h => ?_⟩
      rw [hnext, Option.some_inj] at h
      rwa [← h]

/-- `fuseGates` of the layers of the model, once there are two. -/
theorem fuseGates_layers {m₁ : Moe α} {ms : List (Moe α)} (h : net.layers = m₀ :: m₁ :: ms) (stride : ℕ) :
    let nExp := m₀.gate.rows.length
    let stack : Weight α := ⟨m₀.gate.hidden, net.layers.flatMap fun m => m.gate.rows⟩
    let mods := net.layers.mapIdx fun i m => { m with gate := stack.slice (i * nExp) ((i + 1) * nExp) }
    fuseGates stride net.layers =
      if net.layers.any fun m => m.gate.shape ≠ m₀.gate.shape then none
      else some (mods.mapIdx (Moe.fuse stride nExp stack mods)) := by
  unfold fuseGates
  rw [net.sort_targets, h]

theorem fuseGates_of_short (h : net.layers.length < 2) (stride : ℕ) : fuseGates stride net.layers = none := by
  unfold fuseGates
  rw [net.sort_targets]
  rcases hlayers : net.layers with _ | ⟨m, _ | ⟨m', ms⟩⟩
  · rfl
  · rfl
  · rw [hlayers, List.length_cons, List.length_cons] at h
    omega

theorem exists_two (h : 2 ≤ net.layers.length) : ∃ m₀ m₁ ms, net.layers = m₀ :: m₁ :: ms := by
  rcases hlayers : net.layers with _ | ⟨m, _ | ⟨m', ms⟩⟩
  · simp [hlayers] at h
  · simp [hlayers] at h
  · exact ⟨m, m', ms, rfl⟩

theorem fuseGates_of_stackable (hf : env.fused = true) (hs : env.fusedStack = true) (hstack : Stackable net) :
    ∃ layers, fuseGates env.stride net.layers = some layers ∧ layers.map (·.toMoe) = net.layers ∧
      ∀ x ∈ layers, x.Linked env net := by
  obtain ⟨hlen, hshape⟩ := id hstack
  obtain ⟨m₀, m₁, ms, hlayers⟩ := exists_two hlen
  have hshape₀ : ∀ m ∈ net.layers, m.gate.shape = m₀.gate.shape := fun m hm => hshape m hm m₀ (by simp [hlayers])
  have hany : (net.layers.any fun m => m.gate.shape ≠ m₀.gate.shape) = false := by
    rw [List.any_eq_false]
    intro m hm
    simpa using hshape₀ m hm
  refine ⟨_, by rw [fuseGates_layers hlayers, hany, relay_eq hshape₀]; rfl, ?_, ?_⟩
  · refine List.ext_getElem (by simp) fun i _ hi => ?_
    rw [List.getElem_map, List.getElem_mapIdx]
    exact (linked_fuse hf hs hstack hshape₀ (List.getElem?_eq_getElem hi)).1
  · intro x hx
    obtain ⟨i, hi, rfl⟩ := List.mem_mapIdx.mp hx
    exact (linked_fuse hf hs hstack hshape₀ (List.getElem?_eq_getElem hi)).2

theorem fuseGates_of_not_stackable (hstack : ¬ Stackable net) : fuseGates env.stride net.layers = none := by
  by_cases hlen : 2 ≤ net.layers.length
  · obtain ⟨m₀, m₁, ms, hlayers⟩ := exists_two hlen
    rw [fuseGates_layers hlayers, if_pos]
    by_contra hany
    rw [Bool.not_eq_true, List.any_eq_false] at hany
    have hshape₀ : ∀ m ∈ net.layers, m.gate.shape = m₀.gate.shape := fun m hm => by simpa using hany m hm
    exact hstack ⟨hlen, fun m hm m' hm' => by rw [hshape₀ m hm, hshape₀ m' hm']⟩
  · exact fuseGates_of_short (by omega) env.stride

end Fuse

/-- What holds of the server in every state: the model's layers and the drafts constructed since. -/
structure Server.Fits (env : PredEnv) (net : Net α) (drafts : List (Moe α)) (s : Server α) : Prop where
  modules : s.modules.map (·.toMoe) = net.layers ++ drafts
  nextn : ∀ d ∈ drafts, d.isNextn = true
  linked : ∀ x ∈ s.modules, x.Linked env net
  registered : env.fused = true → Registered net s.registry

section Fits

variable {env : PredEnv} {net : Net α}

theorem register_fresh {moe : List (Moe α)} {m : Moe α} (h : ∀ x ∈ moe, x.layerId < m.layerId) :
    register moe m = moe ++ [m] := by
  unfold register
  rw [List.filter_eq_self.mpr fun x hx => by
    have := h x hx
    simp only [ne_eq, decide_eq_true_eq]
    omega]

variable (env) in
theorem foldl_construct (layers : List (Moe α)) (modules : List (Layer α)) (moe : List (Moe α))
    (hsorted : (moe ++ layers).Pairwise fun m m' => m.layerId < m'.layerId) :
    layers.foldl (Server.construct env) ⟨modules, moe⟩ =
      ⟨modules ++ layers.map Moe.construct, if env.fused then moe ++ layers else moe⟩ := by
  induction layers generalizing modules moe with
  | nil => simp
  | cons m layers ih =>
    have hfresh : register moe m = moe ++ [m] :=
      register_fresh fun x hx => (List.pairwise_append.mp hsorted).2.2 x hx m List.mem_cons_self
    rw [List.foldl_cons]
    show layers.foldl (Server.construct env) ⟨modules ++ [m.construct], if env.fused then register moe m else moe⟩ = _
    by_cases hf : env.fused = true
    · rw [if_pos hf, hfresh, ih _ _ (by simpa using hsorted)]
      simp [hf]
    · rw [if_neg hf, ih _ _ (hsorted.sublist (by simp))]
      simp [hf]

/-- A module that is not stacked starts with no link. -/
theorem linked_construct {m : Moe α} (hm : m.isNextn = false → m ∈ net.layers)
    (h : m.isNextn = false → env.fused = true → ¬ Shares env net m) : m.construct.Linked env net where
  mem := hm
  ofNextn _ := rfl
  shared fw hfw := by cases hfw
  alone _ := h
  linked _ hlinked := by cases hlinked

theorem Server.load_fits : (Server.load env net).Fits env net [] := by
  have hfold := foldl_construct env net.layers [] [] net.sorted
  have hconstructed (h : env.fused = true → ∀ m, ¬ Shares env net m) :
      (Server.mk (net.layers.map Moe.construct) (if env.fused then net.layers else [])).Fits env net [] := by
    refine ⟨?_, by simp, ?_, fun hf => ?_⟩
    · rw [List.map_map, List.append_nil]
      exact List.map_id' _
    · intro x hx
      obtain ⟨m, hm, rfl⟩ := List.mem_map.mp hx
      exact linked_construct (fun _ => hm) fun _ hf => h hf m
    · rw [if_pos hf]
      exact registered_layers net
  unfold Server.load
  rw [hfold, List.nil_append, List.nil_append]
  dsimp only
  by_cases hsite : env.fused = true ∧ env.fusedStack = true
  · rw [if_pos hsite, if_pos hsite.1]
    by_cases hstack : Stackable net
    · obtain ⟨layers, hfuse, hmoe, hlinked⟩ := fuseGates_of_stackable hsite.1 hsite.2 hstack
      rw [hfuse]
      refine ⟨by rw [List.append_nil, hmoe], by simp, hlinked, fun _ => ?_⟩
      show Registered net (layers.map (·.toMoe))
      rw [hmoe]
      exact registered_layers net
    · rw [fuseGates_of_not_stackable hstack]
      have := hconstructed fun _ m hm => hstack hm.2.1
      rwa [if_pos hsite.1] at this
  · rw [if_neg hsite]
    exact hconstructed fun hf m hm => hsite ⟨hf, hm.1⟩

variable {ds : List (Moe α)} {s : Server α}

theorem Server.Fits.construct (hs : s.Fits env net ds) (draft : Draft net) :
    (s.construct env draft.moe).Fits env net (ds ++ [draft.moe]) where
  modules := by
    show (s.modules ++ [draft.moe.construct]).map (·.toMoe) = _
    rw [List.map_append, hs.modules, List.append_assoc]
    rfl
  nextn d hd := by
    rcases List.mem_append.mp hd with hd | hd
    · exact hs.nextn d hd
    · rw [List.mem_singleton.mp hd]
      exact draft.isNextn
  linked x hx := by
    rcases List.mem_append.mp hx with hx | hx
    · exact hs.linked x hx
    · rw [List.mem_singleton.mp hx]
      refine linked_construct (fun hn => ?_) (fun hn => ?_)
      · rw [draft.isNextn] at hn
        cases hn
      · rw [draft.isNextn] at hn
        cases hn
  registered hf := by
    unfold Server.construct
    rw [if_pos hf]
    exact (hs.registered hf).draft draft

variable [Zero α] {g : Gemms α}

theorem Server.Fits.forward (hs : s.Fits env net ds) (hiddenStates : ℕ → List (List α)) :
    Server.Fits env net ds { s with modules := (s.calls g env hiddenStates).map (·.layer) } where
  modules := by
    rw [← hs.modules]
    unfold Server.calls
    refine List.ext_getElem (by simp) fun i _ hi => ?_
    rw [List.length_map] at hi
    simp only [List.getElem_map, List.getElem_mapIdx]
    exact (forwardNormal_layer (hs.linked _ (List.getElem_mem hi)) hs.registered _).1
  nextn := hs.nextn
  linked x hx := by
    obtain ⟨c, hc, rfl⟩ := List.mem_map.mp hx
    obtain ⟨i, hi, rfl⟩ := List.mem_mapIdx.mp hc
    exact (forwardNormal_layer (hs.linked _ (List.getElem_mem hi)) hs.registered _).2
  registered := hs.registered

variable (g env) in
theorem run_fits (events : List (Event net)) : (run g env net events).Fits env net (drafts events) := by
  have hrun (events : List (Event net)) (s : Server α) (ds : List (Moe α)) (hs : s.Fits env net ds) :
      (events.foldl (Server.step g env) s).Fits env net (ds ++ drafts events) := by
    induction events generalizing s ds with
    | nil => simpa [drafts] using hs
    | cons event events ih =>
      rw [List.foldl_cons]
      cases event with
      | draft draft =>
        show Server.Fits env net _ (events.foldl (Server.step g env) (s.construct env draft.moe))
        simpa [drafts] using ih _ _ (hs.construct draft)
      | forward hiddenStates => exact ih _ _ (hs.forward hiddenStates)
  exact hrun events _ [] Server.load_fits

theorem Server.Fits.mem_launches (hs : s.Fits env net ds) {hiddenStates : ℕ → List (List α)} {l : Launch α}
    (hl : l ∈ launches g env s hiddenStates) :
    ∃ i m, net.layers[i]? = some m ∧ Runs env m (hiddenStates i).length ∧ l.layer = m.layerId ∧
      l.target.prefetches = true ∧ Reaches env net m l.target ∧ l.columns = g.linear (hiddenStates i) l.target.gate := by
  obtain ⟨c, hc, hl⟩ := List.mem_flatMap.mp hl
  obtain ⟨i, hi, rfl⟩ := List.mem_mapIdx.mp hc
  obtain ⟨hrun, hlayer, hpf, hreach, hcols⟩ :=
    mem_forwardNormal_launches (hs.linked _ (List.getElem_mem hi)) hs.registered hl
  refine ⟨i, s.modules[i].toMoe, ?_, hrun, hlayer, hpf, hreach, hcols⟩
  -- a draft does not predict
  have hget : (net.layers ++ ds)[i]? = some s.modules[i].toMoe := by
    rw [← hs.modules, List.getElem?_map, List.getElem?_eq_getElem hi]
    rfl
  rw [List.getElem?_append] at hget
  split at hget
  · exact hget
  · have hnextn := hs.nextn _ (List.mem_of_getElem? hget)
    rw [hrun.2.1] at hnextn
    cases hnextn

theorem Server.Fits.exists_launch (hs : s.Fits env net ds) {hiddenStates : ℕ → List (List α)} {i : ℕ} {m t : Moe α}
    (hm : net.layers[i]? = some m) (hrun : Runs env m (hiddenStates i).length) (ht : Reaches env net m t)
    (hpf : t.prefetches = true) : ∃ l ∈ launches g env s hiddenStates, l.layer = m.layerId ∧ l.target = t := by
  have hget : (s.modules.map (·.toMoe))[i]? = some m := by
    rw [hs.modules, List.getElem?_append_left (List.getElem?_eq_some_iff.mp hm).1, hm]
  rw [List.getElem?_map, Option.map_eq_some_iff] at hget
  obtain ⟨x, hx, rfl⟩ := hget
  obtain ⟨l, hl, hlayer, htarget⟩ :=
    exists_forwardNormal_launch (hs.linked x (List.mem_of_getElem? hx)) hs.registered hrun ht hpf
  obtain ⟨hi, rfl⟩ := List.getElem?_eq_some_iff.mp hx
  exact ⟨l, List.mem_flatMap.mpr ⟨_, List.mem_mapIdx.mpr ⟨i, hi, rfl⟩, hl⟩, hlayer, htarget⟩

theorem Server.Fits.mem_pairs (hs : s.Fits env net ds) {hiddenStates : ℕ → List (List α)} {p : ℕ × ℕ} :
    p ∈ pairs g env s hiddenStates ↔ ∃ i m t, net.layers[i]? = some m ∧ Runs env m (hiddenStates i).length ∧
      Reaches env net m t ∧ t.prefetches = true ∧ p = (m.layerId, t.layerId) := by
  constructor
  · rintro ⟨l, hl, rfl⟩
    obtain ⟨i, m, hm, hrun, hlayer, hpf, hreach, -⟩ := hs.mem_launches hl
    exact ⟨i, m, l.target, hm, hrun, hreach, hpf, by rw [← hlayer]; rfl⟩
  · rintro ⟨i, m, t, hm, hrun, hreach, hpf, rfl⟩
    obtain ⟨l, hl, hlayer, htarget⟩ := hs.exists_launch hm hrun hreach hpf
    exact ⟨l, hl, by unfold Launch.pair; rw [hlayer, htarget]⟩

theorem Server.Fits.ownColumns (hs : s.Fits env net ds) (hiddenStates : ℕ → List (List α)) :
    OwnColumns g net hiddenStates (launches g env s hiddenStates) := by
  intro l hl
  obtain ⟨i, m, hm, -, hlayer, -, hreach, hcols⟩ := hs.mem_launches hl
  have hmem : l.target ∈ net.layers := by
    obtain ⟨-, h⟩ | ⟨-, h⟩ := hreach
    · exact h.2.1
    · exact h.2.1
  exact ⟨i, m, hm, hlayer.symm, l.target, hmem, rfl, hcols⟩

theorem Server.Fits.routerLogits (hs : s.Fits env net ds) (hiddenStates : ℕ → List (List α)) :
    (s.calls g env hiddenStates).map (·.routerLogits) =
      (net.layers ++ ds).mapIdx fun i m => logits g env net m (hiddenStates i) := by
  rw [← hs.modules]
  unfold Server.calls
  refine List.ext_getElem (by simp) fun i hi _ => ?_
  simp only [List.length_map, List.length_mapIdx] at hi
  simp only [List.getElem_map, List.getElem_mapIdx]
  exact forwardNormal_routerLogits (hs.linked _ (List.getElem_mem hi)) _

end Fits

/-! ## Stacked and unstacked -/

section Main

/-- A depth other than 1, and a stacked layer that predicts its successor, where that or the layer at the depth can be
fetched for. -/
def Diverges (env : PredEnv) (net : Net α) (hiddenStates : ℕ → List (List α)) : Prop :=
  env.fusedDepth ≠ 1 ∧ Stackable net ∧ ∃ (i : ℕ) (m next t : Moe α), net.layers[i]? = some m ∧
    Runs env m (hiddenStates i).length ∧ Predicts env net 1 m next ∧
    (Predicts env net 1 m t ∨ Predicts env net env.fusedDepth m t) ∧ t.prefetches = true

variable {env : PredEnv} {net : Net α}

theorem reaches_unstacked {m t : Moe α} :
    Reaches { env with fusedStack := false } net m t ↔ Predicts env net env.fusedDepth m t := by
  constructor
  · rintro (⟨⟨hs, -⟩, -⟩ | ⟨-, h⟩)
    · cases hs
    · exact h
  · intro h
    exact .inr ⟨fun hs => (by cases hs.1), h⟩

theorem reaches_stacked {m t : Moe α} : Reaches { env with fusedStack := true } net m t ↔
    (Stackable net ∧ ∃ next, Predicts env net 1 m next) ∧ Predicts env net 1 m t ∨
      ¬ (Stackable net ∧ ∃ next, Predicts env net 1 m next) ∧ Predicts env net env.fusedDepth m t := by
  have hshares : Shares { env with fusedStack := true } net m ↔ Stackable net ∧ ∃ next, Predicts env net 1 m next :=
    ⟨fun h => h.2, fun h => ⟨rfl, h⟩⟩
  unfold Reaches
  rw [hshares]
  rfl

/-- Where the two do not diverge a layer reaches what it would reach unstacked. -/
theorem reaches_iff_of_not_diverges {hiddenStates : ℕ → List (List α)} (h : ¬ Diverges env net hiddenStates) {i : ℕ}
    {m t : Moe α} (hm : net.layers[i]? = some m) (hrun : Runs env m (hiddenStates i).length)
    (hpf : t.prefetches = true) :
    Reaches { env with fusedStack := true } net m t ↔ Reaches { env with fusedStack := false } net m t := by
  rw [reaches_stacked, reaches_unstacked]
  by_cases hs : Stackable net ∧ ∃ next, Predicts env net 1 m next
  · obtain ⟨hstack, next, hnext⟩ := hs
    by_cases hdepth : env.fusedDepth = 1
    · rw [hdepth]
      tauto
    · have hnot : ¬ (Predicts env net 1 m t ∨ Predicts env net env.fusedDepth m t) := fun ht =>
        h ⟨hdepth, hstack, i, m, next, t, hm, hrun, hnext, ht, hpf⟩
      tauto
  · tauto

/-- A layer that takes its router logits out of a shared product has the very ones its gate computes. -/
def GatesAgree (g : Gemms α) (env : PredEnv) (net : Net α) (hiddenStates : ℕ → List (List α)) : Prop :=
  ∀ (i : ℕ) (m : Moe α), net.layers[i]? = some m → Runs env m (hiddenStates i).length → Stackable net →
    (∃ next, Predicts env net 1 m next) → g.linear (hiddenStates i) m.gate = g.gate (hiddenStates i) m.gate

/-- Deterministic inference computes both by `F.linear`. -/
theorem gatesAgree_of_deterministic {g : Gemms α} (hamx : g.weightPackedLinear = none)
    (hdet : g.enableDeterministicInference = true) (hiddenStates : ℕ → List (List α)) :
    GatesAgree g env net hiddenStates := by
  intro i m _ _ _ _
  unfold Gemms.gate
  rw [hamx, hdet, if_pos rfl]

section Pairs

variable [Zero α] {g : Gemms α} {s : Server α} {ds : List (Moe α)} {hiddenStates : ℕ → List (List α)} {m : Moe α}
  {lid : ℕ}

/-- With the gates stacked a layer that has a successor predicts that. -/
theorem pair_stacked (hs : s.Fits { env with fusedStack := true } net ds) (hm : m ∈ net.layers)
    (hstack : Stackable net) {next : Moe α} (hnext : Predicts env net 1 m next)
    (h : (m.layerId, lid) ∈ pairs g { env with fusedStack := true } s hiddenStates) : lid = m.layerId + 1 := by
  obtain ⟨i, m', t, hm', -, hreach, -, heq⟩ := hs.mem_pairs.mp h
  rw [Prod.mk.injEq] at heq
  obtain rfl := net.eq_of_layerId hm (List.mem_of_getElem? hm') heq.1
  obtain ⟨-, ht⟩ | ⟨hno, -⟩ := reaches_stacked.mp hreach
  · rw [heq.2, ht.2.2]
  · exact absurd ⟨hstack, next, hnext⟩ hno

/-- Unstacked every layer predicts the one at the depth. -/
theorem pair_unstacked (hs : s.Fits { env with fusedStack := false } net ds)
    (h : (m.layerId, lid) ∈ pairs g { env with fusedStack := false } s hiddenStates) :
    lid = m.layerId + env.fusedDepth := by
  obtain ⟨i, m', t, -, -, hreach, -, heq⟩ := hs.mem_pairs.mp h
  rw [Prod.mk.injEq] at heq
  rw [heq.1, heq.2, (reaches_unstacked.mp hreach).2.2]

omit [Zero α] in
/-- Stacking changes the router logits of a layer only where they come out of a shared product. -/
theorem logits_eq_iff {h : List (List α)} :
    logits g { env with fusedStack := true } net m h = logits g { env with fusedStack := false } net m h ↔
      (Runs env m h.length → Stackable net → (∃ next, Predicts env net 1 m next) →
        g.linear h m.gate = g.gate h m.gate) := by
  have hoff : ¬ (Runs { env with fusedStack := false } m h.length ∧ Shares { env with fusedStack := false } net m) :=
    fun hs => Bool.false_ne_true hs.2.1
  unfold logits
  rw [if_neg hoff]
  by_cases hon : Runs env m h.length ∧ Stackable net ∧ ∃ next, Predicts env net 1 m next
  · obtain ⟨hrun, hstack, hnext⟩ := hon
    have hpos : h.length ≠ 0 := by
      have := hrun.2.2.1
      omega
    rw [if_pos ⟨hrun, rfl, hstack, hnext⟩, if_neg hpos]
    exact ⟨fun heq _ _ _ => heq, fun heq => heq hrun hstack hnext⟩
  · rw [if_neg fun hs => hon ⟨hs.1, hs.2.2⟩]
    exact ⟨fun _ hrun hstack hnext => absurd ⟨hrun, hstack, hnext⟩ hon, fun _ => rfl⟩

/-- All router logits of a forward are unchanged by stacking exactly when the products agree where one is shared. -/
theorem routerLogits_eq_iff {s' : Server α} (hs : s.Fits { env with fusedStack := true } net ds)
    (hs' : s'.Fits { env with fusedStack := false } net ds) (hiddenStates : ℕ → List (List α)) :
    (s.calls g { env with fusedStack := true } hiddenStates).map (·.routerLogits) =
        (s'.calls g { env with fusedStack := false } hiddenStates).map (·.routerLogits) ↔
      GatesAgree g env net hiddenStates := by
  rw [hs.routerLogits, hs'.routerLogits]
  constructor
  · intro heq i m hm
    have hlen := (List.getElem?_eq_some_iff.mp hm).1
    have hi := congrArg (fun l => l[i]?) heq
    simp only [List.getElem?_mapIdx, List.getElem?_append_left hlen, hm, Option.map_some] at hi
    exact logits_eq_iff.mp (Option.some.inj hi)
  · intro h
    refine List.ext_getElem? fun i => ?_
    rw [List.getElem?_mapIdx, List.getElem?_mapIdx]
    refine Option.map_congr fun m hm => logits_eq_iff.mpr fun hrun hstack hnext => ?_
    rw [List.getElem?_append] at hm
    split at hm
    · exact h i m hm hrun hstack hnext
    · -- a draft does not predict
      have hnextn := hs.nextn m (List.mem_of_getElem? hm)
      rw [hrun.2.1] at hnextn
      cases hnextn

end Pairs

variable [Zero α]

/-- The server with the gates stacked, or not, after the same events. -/
def served (g : Gemms α) (env : PredEnv) (stack : Bool) (net : Net α) (events : List (Event net)) : Server α :=
  run g { env with fusedStack := stack } net events

/-- A forward on the two servers: the same layers predict the same layers, each on the target's own gate, and the router
logits are the same. -/
structure SamePredictions (g : Gemms α) (env : PredEnv) (net : Net α) (events : List (Event net))
    (hiddenStates : ℕ → List (List α)) : Prop where
  pairs : pairs g { env with fusedStack := true } (served g env true net events) hiddenStates =
    pairs g { env with fusedStack := false } (served g env false net events) hiddenStates
  ownColumns : ∀ stack, OwnColumns g net hiddenStates
    (launches g { env with fusedStack := stack } (served g env stack net events) hiddenStates)
  routerLogits :
    ((served g env true net events).calls g { env with fusedStack := true } hiddenStates).map (·.routerLogits) =
    ((served g env false net events).calls g { env with fusedStack := false } hiddenStates).map (·.routerLogits)

/-- The pairs are the same exactly when the two paths do not diverge. -/
theorem pairs_eq_iff (g : Gemms α) (events : List (Event net)) (hiddenStates : ℕ → List (List α)) :
    pairs g { env with fusedStack := true } (served g env true net events) hiddenStates =
        pairs g { env with fusedStack := false } (served g env false net events) hiddenStates ↔
      ¬ Diverges env net hiddenStates := by
  have hon := run_fits { env with fusedStack := true } g events
  have hoff := run_fits { env with fusedStack := false } g events
  constructor
  · rintro hpairs ⟨hdepth, hstack, i, m, next, t, hm, hrun, hnext, ht, hpf⟩
    -- the pair of `m` and `t` is launched on one path, and the other predicts another layer from `m`
    rcases ht with ht | ht
    · have hlaunched :
          (m.layerId, t.layerId) ∈ pairs g { env with fusedStack := true } (served g env true net events) hiddenStates :=
        hon.mem_pairs.mpr
          ⟨i, m, t, hm, hrun, reaches_stacked.mpr (.inl ⟨⟨hstack, next, hnext⟩, ht⟩), hpf, rfl⟩
      have hahead := pair_unstacked hoff (hpairs ▸ hlaunched)
      rw [ht.2.2] at hahead
      omega
    · have hlaunched : (m.layerId, t.layerId) ∈
          pairs g { env with fusedStack := false } (served g env false net events) hiddenStates :=
        hoff.mem_pairs.mpr ⟨i, m, t, hm, hrun, reaches_unstacked.mpr ht, hpf, rfl⟩
      have hahead := pair_stacked hon (List.mem_of_getElem? hm) hstack hnext (hpairs.symm ▸ hlaunched)
      rw [ht.2.2] at hahead
      omega
  · intro h
    ext p
    rw [served, served, hon.mem_pairs, hoff.mem_pairs]
    constructor
    · rintro ⟨i, m, t, hm, hrun, hreach, hpf, rfl⟩
      exact ⟨i, m, t, hm, hrun, (reaches_iff_of_not_diverges h hm hrun hpf).mp hreach, hpf, rfl⟩
    · rintro ⟨i, m, t, hm, hrun, hreach, hpf, rfl⟩
      exact ⟨i, m, t, hm, hrun, (reaches_iff_of_not_diverges h hm hrun hpf).mpr hreach, hpf, rfl⟩

/-- The two paths make the same predictions and the same router logits exactly when they do not diverge, and the gate of
each layer that shares a product agrees with `F.linear` on what it is given. -/
theorem samePredictions_iff (g : Gemms α) (env : PredEnv) (net : Net α) (events : List (Event net))
    (hiddenStates : ℕ → List (List α)) :
    SamePredictions g env net events hiddenStates ↔
      ¬ Diverges env net hiddenStates ∧ GatesAgree g env net hiddenStates := by
  have hlogits := routerLogits_eq_iff (g := g) (run_fits { env with fusedStack := true } g events)
    (run_fits { env with fusedStack := false } g events) hiddenStates
  constructor
  · rintro ⟨hpairs, -, hsame⟩
    exact ⟨(pairs_eq_iff g events hiddenStates).mp hpairs, hlogits.mp hsame⟩
  · rintro ⟨hsame, hgates⟩
    exact ⟨(pairs_eq_iff g events hiddenStates).mpr hsame,
      fun stack => (run_fits { env with fusedStack := stack } g events).ownColumns hiddenStates, hlogits.mpr hgates⟩

/-- Exact products everywhere. -/
def exactGemms : Gemms ℤ where
  dot h row := (List.zipWith (· * ·) h row).sum
  weightPackedLinear := none
  enableDeterministicInference := false
  routerGemm h w := h.map fun x => w.rows.map fun row => (List.zipWith (· * ·) x row).sum

/-- Layers 3 to 5, with one expert each. -/
def threeLayers : Net ℤ where
  layers := [3, 4, 5].map fun lid => ⟨lid, false, ⟨1, [[(lid : ℤ)]]⟩, none, true⟩
  target := by simp
  sorted := by simp

/-- `KT_PRED_FUSED=1 KT_PRED_FUSED_DEPTH=2`. -/
def twoAhead : PredEnv where
  fused := true
  fusedStack := false
  fusedDepth := 2
  depth_pos := by decide
  layerStride := 1
  tmax := 8
  topk := 8
  pmax := 2

/-- With depth 2 layer 3 predicts layer 5, and once the gates are stacked layer 4. -/
theorem samePredictions_fails_twoAhead : ¬ SamePredictions exactGemms twoAhead threeLayers [] fun _ => [[1]] := by
  intro h
  have hon : (3, 4) ∈
      pairs exactGemms { twoAhead with fusedStack := true } (served exactGemms twoAhead true threeLayers [])
        fun _ => [[1]] := by
    unfold pairs
    decide
  rw [h.pairs] at hon
  revert hon
  unfold pairs
  decide

end Main

end ExpertServe.GateStack
