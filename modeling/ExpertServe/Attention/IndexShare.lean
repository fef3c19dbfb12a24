import Mathlib.Data.Int.Basic
import Mathlib.Data.List.Range
import Mathlib.Tactic.Common

/-!
# Which layer owns an indexer

Under IndexShare a layer is Full or Shared: a Full layer picks the top-k of its queries with an indexer of its own, a
Shared one attends through the indices another layer left in the shared slot. Three places classify the layers: the
resolver of the configuration, the attention layer, and the pool that allocates the index keys.

* `getNsaIndexerPattern`, `nsaLayerHasOwnIndexer`: the resolver;
* `AttentionLayer.prepare`: what a layer asks of the device, and the slot after it;
* `NSATokenToKVPool.init`: the pages of each layer;
* `getIndexK_init`: the pool and the attention layer agree;
* `fallback_ownsFirst_iff`: when the first layer of the uniform schedule is Full.
-/

namespace ExpertServe.IndexShare

/-! ## The resolver -/

/-- Python's `str.upper` and `str.lower`. -/
structure Casing where
  upper : String → String
  lower : String → String

/-- What is read of a configuration. An attribute that is absent, or not of the type asked for, is `none`. -/
structure PretrainedConfig where
  architectures : Option (List String)
  indexTopk : Option ℕ
  indexTopkPattern : Option String
  indexerTypes : Option (List String)
  indexTopkFreq : Option ℤ
  indexSkipTopkOffset : Option ℤ
  numHiddenLayers : ℕ
  qLoraRank : Option ℕ

/-- `is_deepseek_nsa`. -/
def isDeepseekNsa (config : PretrainedConfig) : Bool :=
  match config.architectures with
  | some (architecture :: _) =>
    ["DeepseekV3ForCausalLM", "DeepseekV32ForCausalLM", "DeepseekV3ForCausalLMNextN", "MistralLarge3ForCausalLM",
      "PixtralForConditionalGeneration", "GlmMoeDsaForCausalLM"].contains architecture && config.indexTopk.isSome
  | _ => false

/-- The uniform schedule: every `freq`-th layer from `offset` on, and all before it. -/
def fallbackSchedule (freq offset : ℤ) (numHiddenLayers : ℕ) : List Char :=
  (List.range numHiddenLayers).map fun i : ℕ =>
    if (i : ℤ) < offset ∨ ((i : ℤ) - offset) % freq = freq - 1 then 'F' else 'S'

/-- `get_nsa_indexer_pattern`: an explicit string, else the list of types, else the uniform schedule. -/
def getNsaIndexerPattern (py : Casing) (config : PretrainedConfig) : Option (List Char) :=
  match config.indexTopkPattern.filter (· ≠ "") with
  | some pattern => some (py.upper pattern).toList
  | none =>
    match config.indexerTypes.filter (· ≠ []) with
    | some types => some (types.map fun t => if py.lower t = "full" then 'F' else 'S')
    | none =>
      match config.indexTopkFreq.filter (1 < ·) with
      | some freq => some (fallbackSchedule freq (config.indexSkipTopkOffset.getD 0) config.numHiddenLayers)
      | none => none

/-- `nsa_layer_has_own_indexer`. -/
def nsaLayerHasOwnIndexer (py : Casing) (config : PretrainedConfig) (layerId : ℕ) : Bool :=
  match getNsaIndexerPattern py config with
  | none => true
  | some pattern =>
    match pattern[layerId]? with
    | none => true
    | some c => c ≠ 'S'

/-! ## The attention layer -/

/-- Indices that an indexer picked, named by the pass and the layer of the call. -/
structure Indices where
  pass : ℕ
  layer : ℕ
deriving DecidableEq

/-- What a layer asks of the device: its indexer runs, over its index keys, and fills an allocation when the caller
wants indices; or its attention reads the indices behind a pointer it took from the shared slot. -/
inductive Op where
  | indexer (layer : ℕ) (dst : Option Indices)
  | read (layer : ℕ) (src : Option Indices)
deriving DecidableEq

/-- What `DeepseekV2AttentionMLA.__init__` decides about the indexer. -/
structure AttentionLayer where
  layerId : ℕ
  qLoraRank : Option ℕ
  useNsa : Bool
  nsaIndexerIsShared : Bool
  indexer : Bool

/-- `DeepseekV2AttentionMLA.__init__`. -/
def AttentionLayer.init (py : Casing) (config : PretrainedConfig) (layerId : ℕ) : AttentionLayer :=
  let useNsa := isDeepseekNsa config
  let nsaIndexerIsShared := useNsa && !nsaLayerHasOwnIndexer py config layerId
  { layerId
    qLoraRank := config.qLoraRank
    useNsa
    nsaIndexerIsShared
    indexer := useNsa && !nsaIndexerIsShared }

/-- The ways to run attention that a layer dispatches to. -/
inductive AttnForwardMethod where
  | mha
  | mhaChunkedKv
  | mhaOneShot
  | mla
  | mlaFusedRope
  | mlaFusedRopeCpu
deriving DecidableEq

namespace AttentionLayer

/-- `forward_normal_prepare`: the indexer runs for its keys only, and the slot stays. -/
def forwardNormalPrepare (l : AttentionLayer) : List Op :=
  if l.qLoraRank.isSome ∧ l.useNsa ∧ l.indexer then [.indexer l.layerId none] else []

/-- `forward_absorb_prepare` in pass `n`: a Full layer sets the slot, a Shared one gets it. The overlapped branch and
the plain one hand over alike, and `q_lora` is there whenever the layer is of either kind. -/
def forwardAbsorbPrepare (l : AttentionLayer) (n : ℕ) (slot : Option Indices) : List Op × Option Indices :=
  if l.qLoraRank.isSome then
    if l.indexer then
      let topkIndices : Indices := ⟨n, l.layerId⟩
      ([.indexer l.layerId (some topkIndices)], some topkIndices)
    else if l.nsaIndexerIsShared then ([.read l.layerId slot], slot)
    else ([], slot)
  else ([], slot)

/-- `forward_prepare` in pass `n`. -/
def prepare (l : AttentionLayer) (method : AttnForwardMethod) (n : ℕ) (slot : Option Indices) :
    List Op × Option Indices :=
  match method with
  | .mha | .mhaChunkedKv | .mhaOneShot => (l.forwardNormalPrepare, slot)
  | .mla => l.forwardAbsorbPrepare n slot
  | .mlaFusedRope | .mlaFusedRopeCpu => ([], slot)

end AttentionLayer

/-! ## The pool of index keys -/

/-- The pool of a worker: the pages of the index-k buffer of each of its layers. -/
structure NSATokenToKVPool where
  startLayer : ℕ
  numPages : ℕ
  indexKWithScaleBuffer : List ℕ

/-- `NSATokenToKVPool.__init__`. -/
def NSATokenToKVPool.init (size pageSize layerNum : ℕ) (startLayer : Option ℕ) (indexerPattern : Option (List Char)) :
    NSATokenToKVPool :=
  let numPages := (size + pageSize + 1) / pageSize
  let indexKPages (layerOffset : ℕ) : ℕ :=
    match indexerPattern with
    | none => numPages
    | some pattern =>
      let layerId := layerOffset + startLayer.getD 0
      match pattern[layerId]? with
      | none => numPages
      | some c => if c ≠ 'S' then numPages else 1
  { startLayer := startLayer.getD 0
    numPages
    indexKWithScaleBuffer := (List.range layerNum).map indexKPages }

/-- `get_index_k_with_scale_buffer`. -/
def NSATokenToKVPool.getIndexKWithScaleBuffer (pool : NSATokenToKVPool) (layerId : ℕ) : Option ℕ :=
  pool.indexKWithScaleBuffer[layerId - pool.startLayer]?

/-- **The pool agrees with the resolver.** A layer that owns an indexer has a buffer over all pages, a Shared one a
buffer of one page. -/
theorem getIndexK_init (py : Casing) (config : PretrainedConfig) (size pageSize : ℕ) {startLayer endLayer l : ℕ}
    (hstart : startLayer ≤ l) (hend : l < endLayer) :
    (NSATokenToKVPool.init size pageSize (endLayer - startLayer) (some startLayer)
      (getNsaIndexerPattern py config)).getIndexKWithScaleBuffer l =
    some (if nsaLayerHasOwnIndexer py config l then (size + pageSize + 1) / pageSize else 1) := by
  have hoff : l - startLayer < endLayer - startLayer := by omega
  have hid : l - startLayer + startLayer = l := by omega
  simp only [NSATokenToKVPool.getIndexKWithScaleBuffer, NSATokenToKVPool.init, Option.getD_some, List.getElem?_map,
    List.getElem?_range hoff, Option.map_some, hid]
  rcases hp : getNsaIndexerPattern py config with _ | pattern
  · simp [nsaLayerHasOwnIndexer, hp]
  · rcases hc : pattern[l]? with _ | c
    · simp [nsaLayerHasOwnIndexer, hp, hc]
    · by_cases h : c = 'S' <;> simp [nsaLayerHasOwnIndexer, hp, hc, h]

/-! ## The uniform schedule -/

theorem getElem?_fallbackSchedule (freq offset : ℤ) {n i : ℕ} (hi : i < n) :
    (fallbackSchedule freq offset n)[i]? =
      some (if (i : ℤ) < offset ∨ ((i : ℤ) - offset) % freq = freq - 1 then 'F' else 'S') := by
  rw [fallbackSchedule, List.getElem?_map, List.getElem?_range hi, Option.map_some]

/-- **The first layer of the uniform schedule.** It owns an indexer exactly when the offset is positive: from offset 0
the schedule makes the last layer of each group Full, not the first. -/
theorem fallback_ownsFirst_iff (py : Casing) (config : PretrainedConfig) {freq : ℤ}
    (hpattern : config.indexTopkPattern = none)
    (htypes : config.indexerTypes = none) (hfreq : config.indexTopkFreq = some freq) (h1 : 1 < freq)
    (hoffset : 0 ≤ config.indexSkipTopkOffset.getD 0) (hlayers : 0 < config.numHiddenLayers) :
    nsaLayerHasOwnIndexer py config 0 ↔ 0 < config.indexSkipTopkOffset.getD 0 := by
  have hresolve : getNsaIndexerPattern py config =
      some (fallbackSchedule freq (config.indexSkipTopkOffset.getD 0) config.numHiddenLayers) := by
    simp [getNsaIndexerPattern, hpattern, htypes, hfreq, Option.filter_some, h1]
  simp only [nsaLayerHasOwnIndexer, hresolve, getElem?_fallbackSchedule _ _ hlayers, Int.natCast_zero]
  by_cases hpos : 0 < config.indexSkipTopkOffset.getD 0
  · simp [hpos]
  · -- the offset is 0, and 0 is not the last of `freq > 1` residues
    have hzero : config.indexSkipTopkOffset.getD 0 = 0 := by omega
    have hres : ¬ (0 : ℤ) = freq - 1 := by omega
    simp [hzero, hres]

/-- Groups of four after three leading Full layers. -/
example : fallbackSchedule 4 3 11 = "FFFSSSFSSSF".toList := by decide

end ExpertServe.IndexShare
