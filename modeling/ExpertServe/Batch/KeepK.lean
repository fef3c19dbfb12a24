import ExpertServe.Lib.Run
import Mathlib.Algebra.GroupWithZero.Nat
import Mathlib.Algebra.Ring.Int.Defs
import Mathlib.Data.Int.Basic
import Mathlib.Data.List.Basic

/-!
# The tier of each request on its way to the router

A request may ask for a number of experts to keep. `get_model_worker_batch` lists the tiers by request, `init_new`
repeats each for the tokens of its request, `populate_from_forward_batch` copies the rows into a persistent buffer that
a captured graph reads. The number of tokens of a request comes from `extend_lens` in every mode that counts as an
extend, and `TARGET_VERIFY` counts as one, with the lengths the batch still carries from its last extend.

* `Pass.read`: the rows the router reads for one batch, and the buffer after it;
* `ReadsOwn`: every token reads the tier of its own request, every padding row reads -1;
* `Aligned`: what a batch needs, by its own lengths and the batches before it;
* `passes_readOwn_iff`: when the batches of a run all do.
-/

namespace ExpertServe.KeepK

open Lib

/-! ## The three objects -/

/-- `ForwardMode`. -/
inductive ForwardMode where
  | extend
  | decode
  | mixed
  | idle
  | targetVerify
  | draftExtend
  | draftExtendV2
  | prebuilt
  | splitPrefill
  | dllmExtend
deriving DecidableEq

def ForwardMode.isExtend (m : ForwardMode) (includeDraftExtendV2 : Bool) : Bool :=
  m = .extend || m = .mixed || m = .draftExtend || (includeDraftExtendV2 && m = .draftExtendV2) || m = .targetVerify ||
    m = .splitPrefill || m = .dllmExtend

def ForwardMode.isDecodeOrIdle (m : ForwardMode) : Bool := m = .decode || m = .idle

/-- A request: its sampling parameters, if any, and in them the custom ones, if any. -/
structure Req where
  customParams : Option (Option (String → Option ℤ))

/-- `kt_keep_k` of a request. -/
def Req.ktKeepK (r : Req) : Option ℤ := r.customParams.bind fun cp => cp.bind fun params => params "kt_keep_k"

/-- The tier of a request as a row of the router, `-1` when it has none. -/
def Req.tier (r : Req) : ℤ := r.ktKeepK.getD (-1)

/-- What `get_model_worker_batch` reads of a batch; `numTokens` is the length of `input_ids`. -/
structure ScheduleBatch where
  forwardMode : ForwardMode
  reqs : List Req
  extendLens : Option (List ℕ)
  numTokens : ℕ

structure ModelWorkerBatch where
  forwardMode : ForwardMode
  extendSeqLens : Option (List ℕ)
  ktKeepK : List (Option ℤ)
  numSeqs : ℕ
  numTokens : ℕ

/-- `get_model_worker_batch`. -/
def ScheduleBatch.getModelWorkerBatch (b : ScheduleBatch) : ModelWorkerBatch where
  forwardMode := b.forwardMode
  extendSeqLens := if b.forwardMode.isDecodeOrIdle then none else b.extendLens
  ktKeepK := b.reqs.map Req.ktKeepK
  numSeqs := b.reqs.length
  numTokens := b.numTokens

/-- `torch.repeat_interleave` by a tensor of counts: one count for each entry, or one for all; other sizes raise. -/
def repeatInterleave {β : Type*} (ks : List β) (counts : List ℕ) : Option (List β) :=
  if counts.length = ks.length then some ((ks.zip counts).flatMap fun p => List.replicate p.2 p.1)
  else
    match counts with
    | [n] => some (ks.flatMap (List.replicate n))
    | _ => none

/-- An element of an int32 tensor; others raise. -/
def InInt32 (k : ℤ) : Prop := -2 ^ 31 ≤ k ∧ k < 2 ^ 31

instance (k : ℤ) : Decidable (InInt32 k) := inferInstanceAs (Decidable (_ ∧ _))

/-- How many tokens each request contributes, as `init_new` counts them: in a mode that counts as an extend the lengths
the batch brings, if any, else the same number for each. -/
def tokenCounts (b : ModelWorkerBatch) : Option (List ℕ) :=
  let bs := b.ktKeepK.length
  if b.forwardMode.isExtend false ∧ b.extendSeqLens.isSome then b.extendSeqLens
  else if 0 < bs ∧ b.numTokens % bs = 0 then some (List.replicate bs (b.numTokens / bs))
  else none

/-- The rows `init_new` attaches, `none` for none; the outer `none` is a raise. -/
def initNew (b : ModelWorkerBatch) : Option (Option (List ℤ)) :=
  if b.ktKeepK.length = b.numSeqs then
    let ks := b.ktKeepK.map fun k => k.getD (-1)
    match tokenCounts b with
    | some counts =>
      if counts.sum = b.numTokens then
        if ∀ k ∈ ks, InInt32 k then (repeatInterleave ks counts).map some else none
      else some none
    | none => some none
  else some none

/-- `Tensor.copy_` into `n` rows: as many rows, or one for all; other sizes raise. -/
def copyRows (rows : List ℤ) (n : ℕ) : Option (List ℤ) :=
  if rows.length = n then some rows
  else
    match rows with
    | [k] => some (List.replicate n k)
    | _ => none

/-- `populate_from_forward_batch` on the persistent rows. -/
def populateFromForwardBatch (keepK : ℕ → ℤ) (ktKeepK : Option (List ℤ)) (rawBs rawNumToken bs : ℕ) : Option (ℕ → ℤ) :=
  match ktKeepK with
  | none => some keepK
  | some rows =>
    let keepK := if bs ≠ rawBs then fun _ => -1 else keepK
    (copyRows rows rawNumToken).map fun rows i => if i < rawNumToken then rows.getD i (-1) else keepK i

/-! ## One batch -/

/-- How a batch runs: eagerly, or by the graph captured for `pad` requests more than it has. -/
inductive Path where
  | eager
  | graph (pad : ℕ)
deriving DecidableEq

/-- The requests of a batch, at least one. -/
structure Reqs where
  reqs : List Req
  nonempty : reqs ≠ []

/-- A forward batch: an extend, with the length of each request; a decode; or the verification of `d` draft tokens for
each request. The last two find whatever lengths the `ScheduleBatch` still carries. -/
inductive Pass where
  | extend (reqs : List (Req × ℕ))
  | decode (reqs : Reqs) (carried : Option (List ℕ)) (path : Path)
  | targetVerify (d : ℕ) (reqs : Reqs) (carried : Option (List ℕ)) (path : Path)

namespace Pass

/-- The `ScheduleBatch` of a forward. -/
def toScheduleBatch : Pass → ScheduleBatch
  | .extend rs => ⟨.extend, rs.map Prod.fst, some (rs.map Prod.snd), (rs.map Prod.snd).sum⟩
  | .decode rs carried _ => ⟨.decode, rs.reqs, carried, rs.reqs.length⟩
  | .targetVerify d rs carried _ => ⟨.targetVerify, rs.reqs, carried, rs.reqs.length * d⟩

/-- Each request of a forward with the tokens it contributes, in order. -/
def layout : Pass → List (Req × ℕ)
  | .extend rs => rs
  | .decode rs _ _ => rs.reqs.map (·, 1)
  | .targetVerify d rs _ _ => rs.reqs.map (·, d)

def path : Pass → Path
  | .extend _ => .eager
  | .decode _ _ p => p
  | .targetVerify _ _ _ p => p

/-- `num_tokens_per_bs` of the graph that runs the forward. -/
def numTokensPerBs : Pass → ℕ
  | .extend _ => 1
  | .decode _ _ _ => 1
  | .targetVerify d _ _ _ => d

/-- The rows the tokens of a forward should read: each token the tier of its own request. -/
def ownTiers (p : Pass) : List ℤ := p.layout.flatMap fun r => List.replicate r.2 r.1.tier

/-- The rows the router reads for a batch, and the persistent buffer after it; `none` is a raise. Without rows of its
own an eager batch is read as `-1` throughout, and a graph reads what the buffer holds. -/
def read (keepK : ℕ → ℤ) (p : Pass) : Option (List ℤ × (ℕ → ℤ)) :=
  let b := p.toScheduleBatch
  (initNew b.getModelWorkerBatch).bind fun rows =>
    match p.path with
    | .eager => some ((rows.map (List.take b.numTokens)).getD (List.replicate b.numTokens (-1)), keepK)
    | .graph pad =>
      let rawBs := b.reqs.length
      let bs := rawBs + pad
      (populateFromForwardBatch keepK rows rawBs (rawBs * p.numTokensPerBs) bs).map fun keepK =>
        ((List.range (bs * p.numTokensPerBs)).map keepK, keepK)

/-- The padding rows of a batch. -/
def padding (p : Pass) : ℕ :=
  match p.path with
  | .eager => 0
  | .graph pad => pad * p.numTokensPerBs

/-- Every token reads the tier of its own request, and every padding row reads `-1`. -/
def ReadsOwn (keepK : ℕ → ℤ) (p : Pass) : Prop :=
  ∃ keepK', p.read keepK = some (p.ownTiers ++ List.replicate p.padding (-1), keepK')

/-- The tiers of a batch are int32 numbers. -/
def Fits (p : Pass) : Prop := ∀ r ∈ p.toScheduleBatch.reqs, InInt32 r.tier

instance (p : Pass) : Decidable p.Fits := inferInstanceAs (Decidable (∀ r ∈ p.toScheduleBatch.reqs, InInt32 r.tier))

/-- A batch attaches rows, unless it is a verification whose carried lengths are another number of tokens. -/
def Attaches : Pass → Prop
  | .extend _ => True
  | .decode _ _ _ => True
  | .targetVerify d rs carried _ => ∀ lens ∈ carried, lens.sum = rs.reqs.length * d

instance (p : Pass) : Decidable p.Attaches :=
  match p with
  | .extend _ => isTrue trivial
  | .decode _ _ _ => isTrue trivial
  | .targetVerify d rs carried _ =>
    inferInstanceAs (Decidable (∀ lens ∈ carried, lens.sum = rs.reqs.length * d))

/-- The tier of the request whose token stood last in a row of the graphs, `-1` where none has since a padded batch. The
batches are listed newest first. -/
def lastTier : List Pass → ℕ → ℤ
  | [], _ => -1
  | p :: earlier, i =>
    match p.path with
    | .eager => lastTier earlier i
    | .graph pad =>
      if ¬ p.Attaches then lastTier earlier i
      else if i < p.ownTiers.length then p.ownTiers.getD i (-1)
      else if pad = 0 then lastTier earlier i
      else -1

/-- A batch is aligned after `earlier` ones if its tiers fit, and, where it is a verification, the lengths it carries
repeat the tiers into the rows that `d` tokens for each request do. Where their sum is another number of tokens, there
must be no tier to miss (eagerly), or tokens of the same tiers must have stood in the rows before (by a graph). -/
def Aligned (earlier : List Pass) (p : Pass) : Prop :=
  match p with
  | .targetVerify d rs (some lens) path =>
    if lens.sum = rs.reqs.length * d then
      p.Fits ∧
        match path with
        | .eager =>
          (repeatInterleave (rs.reqs.map Req.tier) lens).map (List.take (rs.reqs.length * d)) = some p.ownTiers
        | .graph _ => repeatInterleave (rs.reqs.map Req.tier) lens = some p.ownTiers
    else
      match path with
      | .eager => p.ownTiers = List.replicate (rs.reqs.length * d) (-1)
      | .graph pad => (List.range ((rs.reqs.length + pad) * d)).map (lastTier earlier) =
          p.ownTiers ++ List.replicate (pad * d) (-1)
  | _ => p.Fits

/-- One batch after the other on the persistent rows; `none` is a process that has ended. -/
def step (s : Option (ℕ → ℤ)) (p : Pass) : Option (ℕ → ℤ) := s.bind fun keepK => (p.read keepK).map Prod.snd

/-- A property of batches, on the rows they meet. -/
def OnRows (P : (ℕ → ℤ) → Pass → Prop) : Option (ℕ → ℤ) → Pass → Prop
  | some keepK, p => P keepK p
  | none, _ => True

end Pass

/-! ## The rows of a batch -/

section Rows

variable {ks : List ℤ} {lens : List ℕ} {rows : List ℤ} {keepK : ℕ → ℤ}

/-- Counts listed beside the requests repeat each tier for its own request. -/
theorem repeatInterleave_layout (rs : List (Req × ℕ)) :
    repeatInterleave (rs.map fun r => r.1.tier) (rs.map Prod.snd) =
      some (rs.flatMap fun r => List.replicate r.2 r.1.tier) := by
  unfold repeatInterleave
  rw [if_pos (by rw [List.length_map, List.length_map]), List.zip_map', List.flatMap_map]

/-- The rows are as many as the counts add up to, unless one count is taken for several requests. -/
theorem length_repeatInterleave {β : Type*} {ks rows : List β} (h : repeatInterleave ks lens = some rows) :
    rows.length = lens.sum ∨ (ks.length ≠ 1 ∧ rows.length = ks.length * lens.sum) := by
  unfold repeatInterleave at h
  split at h
  · next hlen =>
    obtain rfl := Option.some.inj h
    refine Or.inl ?_
    rw [List.length_flatMap, ← congrArg List.sum (List.map_snd_zip hlen.le)]
    simp
  · next hlen =>
    split at h
    · obtain rfl := Option.some.inj h
      refine Or.inr ⟨fun h => hlen h.symm, ?_⟩
      simp [List.length_flatMap]
    · exact absurd h.symm (Option.some_ne_none rows)

/-- Rows that are copied into the places of as many tokens are the rows. -/
theorem copyRows_of_repeatInterleave (h : repeatInterleave ks lens = some rows) (n : ℕ) (hn : lens.sum = n) :
    copyRows rows n = if rows.length = n then some rows else none := by
  unfold copyRows
  split
  · rfl
  · next hne =>
    split
    · -- a single row comes of a single token
      rcases length_repeatInterleave h with hlen | ⟨hks, hlen⟩
      · exact absurd (hlen.trans hn) hne
      · rw [List.length_singleton] at hlen
        exact absurd (Nat.eq_one_of_mul_eq_one_right hlen.symm) hks
    · rfl

/-- What a graph reads after rows were copied: the rows, then `-1` for the padding. -/
theorem populate_read {rawBs perBs : ℕ} (pad : ℕ) (hlen : rows.length = rawBs * perBs) :
    (List.range ((rawBs + pad) * perBs)).map (fun i => if i < rawBs * perBs then rows.getD i (-1)
      else (if rawBs + pad ≠ rawBs then fun _ => -1 else keepK) i) = rows ++ List.replicate (pad * perBs) (-1) := by
  rw [Nat.add_mul, List.range_add, List.map_append, List.map_map]
  congr 1
  · refine List.ext_getElem (by simp [hlen]) fun i h₁ h₂ => ?_
    rw [List.length_map, List.length_range] at h₁
    rw [List.getElem_map, List.getElem_range, if_pos h₁, List.getD_eq_getElem?_getD, List.getElem?_eq_getElem h₂,
      Option.getD_some]
  · refine List.eq_replicate_iff.mpr ⟨by simp, fun k hk => ?_⟩
    obtain ⟨i, hi, rfl⟩ := List.mem_map.mp hk
    have hpad : rawBs + pad ≠ rawBs := by
      rintro h
      obtain rfl : pad = 0 := by omega
      simp at hi
    show (if rawBs * perBs + i < rawBs * perBs then _ else _) = _
    rw [if_neg (by omega), if_pos hpad]

end Rows

namespace Pass

section Read

variable {keepK : ℕ → ℤ} {p : Pass} {rows : List ℤ}

/-- The rows `init_new` attaches to a batch. -/
def attached (p : Pass) : Option (Option (List ℤ)) := initNew p.toScheduleBatch.getModelWorkerBatch

/-- The rows alone, without the buffer. -/
theorem ReadsOwn.read_rows (h : p.ReadsOwn keepK) :
    (p.read keepK).map Prod.fst = some (p.ownTiers ++ List.replicate p.padding (-1)) := by
  obtain ⟨_, h⟩ := h
  rw [h]
  rfl

/-- An eager batch reads its own tiers when what is attached cuts down to them. -/
theorem readsOwn_eager_iff (hp : p.path = .eager) : p.ReadsOwn keepK ↔
    ∃ rows, p.attached = some rows ∧ (rows.map (List.take p.toScheduleBatch.numTokens)).getD
      (List.replicate p.toScheduleBatch.numTokens (-1)) = p.ownTiers := by
  have hpad : p.padding = 0 := by
    unfold padding
    rw [hp]
  have hread : p.read keepK = p.attached.map fun rows => ((rows.map (List.take p.toScheduleBatch.numTokens)).getD
      (List.replicate p.toScheduleBatch.numTokens (-1)), keepK) := by
    unfold read
    dsimp only
    rw [hp]
    cases h : p.attached <;> rw [attached] at h <;> rw [h] <;> rfl
  unfold ReadsOwn
  rw [hread, hpad, List.replicate_zero, List.append_nil]
  simp only [Option.map_eq_some_iff, Prod.mk.injEq]
  exact ⟨fun ⟨_, rows, h, heq, _⟩ => ⟨rows, h, heq⟩, fun ⟨rows, h, heq⟩ => ⟨keepK, rows, h, heq, rfl⟩⟩

/-- A batch run by a graph without rows of its own reads what the buffer holds. -/
theorem readsOwn_graph_none_iff {pad : ℕ} (hp : p.path = .graph pad) (h : p.attached = some none) : p.ReadsOwn keepK ↔
    (List.range ((p.toScheduleBatch.reqs.length + pad) * p.numTokensPerBs)).map keepK =
      p.ownTiers ++ List.replicate (pad * p.numTokensPerBs) (-1) := by
  have hpad : p.padding = pad * p.numTokensPerBs := by
    unfold padding
    rw [hp]
  have hread : p.read keepK =
      some ((List.range ((p.toScheduleBatch.reqs.length + pad) * p.numTokensPerBs)).map keepK, keepK) := by
    unfold read
    dsimp only
    rw [hp]
    rw [attached] at h
    rw [h]
    rfl
  unfold ReadsOwn
  rw [hread, hpad]
  simp

/-- With rows, it reads these, or raises. -/
theorem readsOwn_graph_some_iff {pad : ℕ} (hp : p.path = .graph pad) (h : p.attached = some (some rows))
    (hlen : p.ownTiers.length = p.toScheduleBatch.reqs.length * p.numTokensPerBs)
    (hcopy : copyRows rows (p.toScheduleBatch.reqs.length * p.numTokensPerBs) =
      if rows.length = p.toScheduleBatch.reqs.length * p.numTokensPerBs then some rows else none) :
    p.ReadsOwn keepK ↔ rows = p.ownTiers := by
  have hpad : p.padding = pad * p.numTokensPerBs := by
    unfold padding
    rw [hp]
  rw [attached] at h
  unfold ReadsOwn read
  dsimp only
  rw [hp, h, Option.bind_some, hpad]
  dsimp only
  unfold populateFromForwardBatch
  dsimp only
  rw [hcopy]
  by_cases hrows : rows.length = p.toScheduleBatch.reqs.length * p.numTokensPerBs
  · rw [if_pos hrows, Option.map_some, Option.map_some, populate_read pad hrows]
    simp
  · rw [if_neg hrows]
    refine ⟨fun ⟨_, h⟩ => absurd h (by simp), fun heq => absurd (heq ▸ hlen) hrows⟩

/-- A batch that raises reads nothing. -/
theorem not_readsOwn_of_raise (h : p.attached = none) : ¬ p.ReadsOwn keepK := by
  rintro ⟨keepK', hread⟩
  rw [attached] at h
  unfold read at hread
  dsimp only at hread
  rw [h] at hread
  cases hread

/-- A batch with its own tiers attached reads them, on either path. -/
theorem readsOwn_of_attached (h : p.attached = some (some p.ownTiers))
    (htokens : p.ownTiers.length = p.toScheduleBatch.numTokens)
    (hgraph : ∀ pad, p.path = .graph pad →
      p.ownTiers.length = p.toScheduleBatch.reqs.length * p.numTokensPerBs) : p.ReadsOwn keepK := by
  cases hp : p.path with
  | eager =>
    refine (readsOwn_eager_iff hp).mpr ⟨_, h, ?_⟩
    rw [Option.map_some, Option.getD_some, ← htokens, List.take_length]
  | graph pad =>
    have hlen := hgraph pad hp
    refine (readsOwn_graph_some_iff hp h hlen ?_).mpr rfl
    unfold copyRows
    rw [if_pos hlen, if_pos hlen]

end Read

/-! ## The three kinds of batches -/

section Kinds

variable {p : Pass} {keepK : ℕ → ℤ} {rs : Reqs} {carried : Option (List ℕ)} {path : Path} {d : ℕ} {lens : List ℕ}

theorem tiers_eq (l : List Req) : (l.map Req.ktKeepK).map (fun k => k.getD (-1)) = l.map Req.tier := by
  rw [List.map_map]
  rfl

theorem sum_layout (l : List Req) (n : ℕ) : ((l.map (·, n)).map Prod.snd).sum = l.length * n := by
  rw [List.map_map]
  show (l.map fun _ => n).sum = _
  simp

theorem length_ownTiers (p : Pass) : p.ownTiers.length = (p.layout.map Prod.snd).sum := by
  unfold ownTiers
  simp [List.length_flatMap]

/-- The same number of tokens for each request, laid out. -/
theorem repeatInterleave_uniform (l : List Req) (n : ℕ) :
    repeatInterleave (l.map Req.tier) (List.replicate l.length n) =
      some ((l.map (·, n)).flatMap fun r => List.replicate r.2 r.1.tier) := by
  have hcounts : List.replicate l.length n = (l.map (·, n)).map Prod.snd := by
    rw [List.map_map]
    exact List.map_const'.symm
  have htiers : l.map Req.tier = (l.map (·, n)).map fun r => r.1.tier := by
    rw [List.map_map]
    rfl
  rw [hcounts, htiers, repeatInterleave_layout]

/-- What is attached to the requests `l` once their tokens are counted. -/
theorem initNew_of_counts {b : ModelWorkerBatch} {l : List Req} {counts : List ℕ} (hks : b.ktKeepK = l.map Req.ktKeepK)
    (hseqs : b.numSeqs = l.length) (hcounts : tokenCounts b = some counts) (hsum : counts.sum = b.numTokens) :
    initNew b = if ∀ r ∈ l, InInt32 r.tier then (repeatInterleave (l.map Req.tier) counts).map some else none := by
  have hlen : b.ktKeepK.length = b.numSeqs := by rw [hks, hseqs, List.length_map]
  unfold initNew
  rw [if_pos hlen, hks, tiers_eq, hcounts]
  dsimp only
  rw [if_pos hsum]
  simp only [List.forall_mem_map]

theorem extend_attached (es : List (Req × ℕ)) : (Pass.extend es).attached =
    if ∀ r ∈ es.map Prod.fst, InInt32 r.tier then some (some (Pass.extend es).ownTiers) else none := by
  have hlen : (es.map Prod.fst).length = es.length := List.length_map _
  have hlayout :
      repeatInterleave ((es.map Prod.fst).map Req.tier) (es.map Prod.snd) = some (Pass.extend es).ownTiers := by
    rw [List.map_map]
    exact repeatInterleave_layout es
  have h : (Pass.extend es).attached = _ :=
    initNew_of_counts (b := (Pass.extend es).toScheduleBatch.getModelWorkerBatch) (l := es.map Prod.fst) rfl rfl rfl rfl
  rw [h, hlayout]
  rfl

/-- Without lengths of its own a batch of `n` tokens for each request attaches its own tiers. -/
theorem initNew_uniform (m : ForwardMode) (rs : Reqs) (n : ℕ) {lens : Option (List ℕ)}
    (h : m.isExtend false = false ∨ lens = none) :
    initNew ⟨m, lens, rs.reqs.map Req.ktKeepK, rs.reqs.length, rs.reqs.length * n⟩ =
      if ∀ r ∈ rs.reqs, InInt32 r.tier then
        some (some ((rs.reqs.map (·, n)).flatMap fun r => List.replicate r.2 r.1.tier))
      else none := by
  have hpos : 0 < rs.reqs.length := List.length_pos_iff.mpr rs.nonempty
  have hcounts : tokenCounts ⟨m, lens, rs.reqs.map Req.ktKeepK, rs.reqs.length, rs.reqs.length * n⟩ =
      some (List.replicate rs.reqs.length n) := by
    unfold tokenCounts
    dsimp only
    rw [List.length_map, if_neg, if_pos ⟨hpos, Nat.mul_mod_right _ _⟩, Nat.mul_div_cancel_left n hpos]
    rintro ⟨hm, hlens⟩
    rcases h with h | rfl
    · exact absurd (hm.symm.trans h) (by decide)
    · exact absurd hlens (by decide)
  rw [initNew_of_counts rfl rfl hcounts (by simp), repeatInterleave_uniform]
  rfl

/-- With carried lengths a verification expands by these. -/
theorem initNew_carried (rs : Reqs) (n : ℕ) (lens : List ℕ) :
    initNew ⟨.targetVerify, some lens, rs.reqs.map Req.ktKeepK, rs.reqs.length, n⟩ =
      if lens.sum = n then
        if ∀ r ∈ rs.reqs, InInt32 r.tier then (repeatInterleave (rs.reqs.map Req.tier) lens).map some else none
      else some none := by
  split
  · next hsum => exact initNew_of_counts rfl rfl rfl hsum
  · next hsum =>
    unfold initNew
    dsimp only
    rw [if_pos (List.length_map _)]
    exact if_neg hsum

/-- A batch whose own tiers are attached if they fit reads them exactly if they do. -/
theorem readsOwn_iff_fits (h : p.attached = if p.Fits then some (some p.ownTiers) else none)
    (htokens : p.ownTiers.length = p.toScheduleBatch.numTokens)
    (hgraph : ∀ pad, p.path = .graph pad →
      p.ownTiers.length = p.toScheduleBatch.reqs.length * p.numTokensPerBs) : p.ReadsOwn keepK ↔ p.Fits := by
  by_cases hfits : p.Fits
  · rw [if_pos hfits] at h
    exact iff_of_true (readsOwn_of_attached h htokens hgraph) hfits
  · rw [if_neg hfits] at h
    exact iff_of_false (not_readsOwn_of_raise h) hfits

theorem length_ownTiers_decode : (Pass.decode rs carried path).ownTiers.length = rs.reqs.length := by
  rw [length_ownTiers]
  exact (sum_layout rs.reqs 1).trans (Nat.mul_one _)

theorem length_ownTiers_targetVerify : (Pass.targetVerify d rs carried path).ownTiers.length = rs.reqs.length * d := by
  rw [length_ownTiers]
  exact sum_layout rs.reqs d

theorem decode_attached : (Pass.decode rs carried path).attached =
    if (Pass.decode rs carried path).Fits then some (some (Pass.decode rs carried path).ownTiers) else none := by
  have h : initNew ⟨.decode, none, rs.reqs.map Req.ktKeepK, rs.reqs.length, rs.reqs.length * 1⟩ = _ :=
    initNew_uniform .decode rs 1 (.inl rfl)
  rw [Nat.mul_one] at h
  exact h

theorem targetVerify_attached : (Pass.targetVerify d rs none path).attached =
    if (Pass.targetVerify d rs none path).Fits then some (some (Pass.targetVerify d rs none path).ownTiers) else none :=
  initNew_uniform .targetVerify rs d (.inr rfl)

theorem targetVerify_attached_carried : (Pass.targetVerify d rs (some lens) path).attached =
    if lens.sum = rs.reqs.length * d then
      if (Pass.targetVerify d rs (some lens) path).Fits then
        (repeatInterleave (rs.reqs.map Req.tier) lens).map some
      else none
    else some none := initNew_carried rs _ lens

/-- An extend reads its own tiers if they fit. -/
theorem extend_readsOwn_iff (es : List (Req × ℕ)) : (Pass.extend es).ReadsOwn keepK ↔ (Pass.extend es).Fits :=
  readsOwn_iff_fits (extend_attached es) (length_ownTiers _) fun _ h => by cases h

/-- So does a decode, whatever lengths its batch carries. -/
theorem decode_readsOwn_iff :
    (Pass.decode rs carried path).ReadsOwn keepK ↔ (Pass.decode rs carried path).Fits := by
  have hlen : (Pass.decode rs carried path).ownTiers.length = rs.reqs.length := length_ownTiers_decode
  exact readsOwn_iff_fits decode_attached hlen fun _ _ => hlen.trans (Nat.mul_one _).symm

/-- And so does a verification whose batch carries none. -/
theorem targetVerify_readsOwn_iff_fits :
    (Pass.targetVerify d rs none path).ReadsOwn keepK ↔ (Pass.targetVerify d rs none path).Fits :=
  readsOwn_iff_fits targetVerify_attached length_ownTiers_targetVerify fun _ _ => length_ownTiers_targetVerify

/-- **A verification with carried lengths** reads its own tiers exactly when it is aligned with what stands in the
rows. -/
theorem targetVerify_readsOwn_iff (earlier : List Pass) :
    (Pass.targetVerify d rs (some lens) path).ReadsOwn (lastTier earlier) ↔
      (Pass.targetVerify d rs (some lens) path).Aligned earlier := by
  have hlen : (Pass.targetVerify d rs (some lens) path).ownTiers.length = rs.reqs.length * d :=
    length_ownTiers_targetVerify
  have hattached : (Pass.targetVerify d rs (some lens) path).attached = _ := targetVerify_attached_carried
  unfold Aligned
  dsimp only
  by_cases hsum : lens.sum = rs.reqs.length * d
  · rw [if_pos hsum] at hattached ⊢
    by_cases hfits : (Pass.targetVerify d rs (some lens) path).Fits
    · rw [if_pos hfits] at hattached
      rw [and_iff_right hfits]
      cases path with
      | eager =>
        rw [readsOwn_eager_iff rfl, hattached]
        cases hrows : repeatInterleave (rs.reqs.map Req.tier) lens with
        | none => simp
        | some rows => simp [toScheduleBatch]
      | graph pad =>
        cases hrows : repeatInterleave (rs.reqs.map Req.tier) lens with
        | none =>
          rw [hrows] at hattached
          exact iff_of_false (not_readsOwn_of_raise hattached) (by simp)
        | some rows =>
          rw [hrows] at hattached
          rw [readsOwn_graph_some_iff rfl hattached hlen (copyRows_of_repeatInterleave hrows _ hsum), Option.some_inj]
    · rw [if_neg hfits] at hattached
      exact iff_of_false (not_readsOwn_of_raise hattached) fun h => hfits h.1
  · rw [if_neg hsum] at hattached ⊢
    cases path with
    | eager =>
      rw [readsOwn_eager_iff rfl, hattached]
      simp [toScheduleBatch, eq_comm]
    | graph pad => exact readsOwn_graph_none_iff rfl hattached

/-- What a batch attaches that runs by a graph and reads its own tiers. -/
theorem ReadsOwn.attached (h : p.ReadsOwn keepK) {pad : ℕ} (hp : p.path = .graph pad) :
    p.attached = some (if p.Attaches then some p.ownTiers else none) := by
  cases p with
  | extend es => cases hp
  | decode rs carried path =>
    rw [decode_attached, if_pos (decode_readsOwn_iff.mp h),
      if_pos (show (Pass.decode rs carried path).Attaches from trivial)]
  | targetVerify d rs carried path =>
    cases carried with
    | none =>
      have hattaches : (Pass.targetVerify d rs none path).Attaches := fun lens hlens => by cases hlens
      rw [targetVerify_attached, if_pos (targetVerify_readsOwn_iff_fits.mp h), if_pos hattaches]
    | some lens =>
      have hattached : (Pass.targetVerify d rs (some lens) path).attached = _ := targetVerify_attached_carried
      by_cases hsum : lens.sum = rs.reqs.length * d
      · have hattaches : (Pass.targetVerify d rs (some lens) path).Attaches := fun l hl => by cases hl; exact hsum
        rw [if_pos hattaches]
        rw [if_pos hsum] at hattached
        by_cases hfits : (Pass.targetVerify d rs (some lens) path).Fits
        · rw [if_pos hfits] at hattached
          cases hrows : repeatInterleave (rs.reqs.map Req.tier) lens with
          | none =>
            rw [hrows] at hattached
            exact absurd h (not_readsOwn_of_raise hattached)
          | some rows =>
            rw [hrows] at hattached
            rw [readsOwn_graph_some_iff hp hattached length_ownTiers_targetVerify
              (copyRows_of_repeatInterleave hrows _ hsum)] at h
            rw [hattached, h]
            rfl
        · rw [if_neg hfits] at hattached
          exact absurd h (not_readsOwn_of_raise hattached)
      · have hattaches : ¬ (Pass.targetVerify d rs (some lens) path).Attaches := fun h => hsum (h lens rfl)
        rw [hattached, if_neg hsum, if_neg hattaches]

theorem length_ownTiers_graph {pad : ℕ} (hp : p.path = .graph pad) :
    p.ownTiers.length = p.toScheduleBatch.reqs.length * p.numTokensPerBs := by
  cases p with
  | extend es => cases hp
  | decode rs carried path => exact length_ownTiers_decode.trans (Nat.mul_one _).symm
  | targetVerify d rs carried path => exact length_ownTiers_targetVerify

end Kinds

/-- **One batch** reads its own tiers exactly when it is aligned after the batches that have left the rows. -/
theorem readsOwn_iff (earlier : List Pass) (p : Pass) : p.ReadsOwn (lastTier earlier) ↔ p.Aligned earlier := by
  cases p with
  | extend es => exact extend_readsOwn_iff es
  | decode rs carried path => exact decode_readsOwn_iff
  | targetVerify d rs carried path =>
    cases carried with
    | none => exact targetVerify_readsOwn_iff_fits
    | some lens => exact targetVerify_readsOwn_iff earlier

/-- A batch that reads its own tiers leaves them in the rows, where it attaches any. -/
theorem ReadsOwn.step_eq {earlier : List Pass} {p : Pass} (h : p.ReadsOwn (lastTier earlier)) :
    step (some (lastTier earlier)) p = some (lastTier (p :: earlier)) := by
  cases hp : p.path with
  | eager =>
    have hlast : lastTier (p :: earlier) = lastTier earlier := by
      funext i
      simp only [lastTier, hp]
    obtain ⟨keepK, hread⟩ := h
    have hkeep : keepK = lastTier earlier := by
      unfold read at hread
      dsimp only at hread
      rw [hp] at hread
      obtain ⟨rows, -, heq⟩ := Option.bind_eq_some_iff.mp hread
      exact (Prod.mk.inj (Option.some.inj heq)).2.symm
    rw [hlast]
    show (p.read (lastTier earlier)).map Prod.snd = _
    rw [hread, hkeep]
    rfl
  | graph pad =>
    have hattached := h.attached hp
    have hlen := length_ownTiers_graph hp
    rw [Pass.attached] at hattached
    show (p.read (lastTier earlier)).map Prod.snd = _
    unfold read
    dsimp only
    rw [hp, hattached, Option.bind_some]
    dsimp only
    unfold populateFromForwardBatch
    by_cases hattaches : p.Attaches
    · have hcopy : copyRows p.ownTiers (p.toScheduleBatch.reqs.length * p.numTokensPerBs) = some p.ownTiers := by
        unfold copyRows
        exact if_pos hlen
      rw [if_pos hattaches]
      dsimp only
      rw [hcopy, Option.map_some, Option.map_some, Option.map_some, Option.some_inj]
      funext i
      simp only [lastTier, hp, hlen, not_true_eq_false, hattaches, if_false]
      by_cases hi : i < p.toScheduleBatch.reqs.length * p.numTokensPerBs
      · rw [if_pos hi, if_pos hi]
      · rw [if_neg hi, if_neg hi]
        by_cases hpad : pad = 0
        · simp [hpad]
        · simp [hpad]
    · rw [if_neg hattaches, Option.map_some, Option.map_some, Option.some_inj]
      funext i
      simp only [lastTier, hp, hattaches, not_false_eq_true, if_true]

/-- **The tiers of every batch.** In a run of batches of any kind and length from the buffer as it is allocated, every
batch reads the tiers of its own requests, and `-1` for its padding, exactly when each is aligned after the batches
before it. -/
theorem passes_readOwn_iff (passes : List Pass) :
    StepsMeet step (OnRows ReadsOwn) (some fun _ => -1) passes ↔
      StepsMeet (fun earlier p => p :: earlier) (fun earlier p => p.Aligned earlier) [] passes := by
  have hstart : (some fun _ => -1 : Option (ℕ → ℤ)) = some (lastTier []) := rfl
  rw [hstart]
  refine stepsMeet_iff_of_follows (R := fun s earlier => s = some (lastTier earlier)) ?_ ?_ rfl passes
  · rintro _ earlier p rfl
    exact readsOwn_iff earlier p
  · rintro _ earlier p rfl h
    exact ReadsOwn.step_eq h

/-- A request that asks for three experts, and one that asks for none in particular. -/
def asksThree : Req := ⟨some (some fun key => if key = "kt_keep_k" then some 3 else none)⟩

def asksNothing : Req := ⟨some none⟩

/-- Two draft tokens for each request, run by a graph of the batch's own size. The first verification follows an extend
of two tokens and fills the buffer; the second follows an extend of five and leaves it. -/
def staleTiers : List Pass :=
  [.extend [(asksThree, 2)], .targetVerify 2 ⟨[asksThree], by simp⟩ (some [2]) (.graph 0),
    .extend [(asksNothing, 5)], .targetVerify 2 ⟨[asksNothing], by simp⟩ (some [5]) (.graph 0)]

/-- A request without a tier reads the tier of an earlier batch, and, where the carried lengths happen to add up, one
request reads the tier of another. -/
theorem staleTiers_leak :
    (¬ StepsMeet step (OnRows ReadsOwn) (some fun _ => -1) staleTiers) ∧
      ¬ StepsMeet step (OnRows ReadsOwn) (some fun _ => -1)
        [.extend [(asksThree, 1), (asksNothing, 3)],
          .targetVerify 2 ⟨[asksThree, asksNothing], by simp⟩ (some [1, 3]) (.graph 0)] := by
  constructor
  · rintro ⟨-, -, -, hlast, -⟩
    exact absurd (ReadsOwn.read_rows hlast) (by decide)
  · rintro ⟨-, hlast, -⟩
    exact absurd (ReadsOwn.read_rows hlast) (by decide)

end Pass

end ExpertServe.KeepK
