import ExpertServe.Batch.KeepK
import ExpertServe.Forward.SafeRouting
import ExpertServe.Policy.SpeedDial
import Mathlib.Data.List.Enum
import Mathlib.Data.List.Range
import Mathlib.Tactic.Common

/-!
# The tier a client sends and the requests beside it

`kt_keep_k` comes out of the JSON of a request as it is. `init_new` calls `int` on it, puts all of a batch into one
int32 tensor and repeats them for the tokens; the router turns the row of each token into a number of experts. A value
that cannot be converted raises for the whole batch.

* `Json.toInt`: `int` of what a client may send;
* `Batch.initNew`, `ktTopkExperiment`: from the values to the routing of each token;
* `ktKeepVec_congr`: a token is routed by its own row;
* `initNew_eq_keepK`: for values that convert, the rows are those of the tiers;
* `Batch.apart_of_own_lengths`: an extend or a decode takes no row from another request;
* `isolated_iff`: when the value of one request leaves every other alone.
-/

namespace ExpertServe.TierIsolation

open Lib KeepK

/-! ## What a client may send -/

inductive Json where
  | null
  | bool (b : Bool)
  | int (n : ℤ)
  | float (x : ℚ)
  | nan
  | infinity (negative : Bool)
  | str (s : List Char)
  | arr (items : List Json)
  | obj (fields : List (List Char × Json))

/-- What `int` knows of characters: the value of a decimal digit, of any script, and what is white space. -/
structure CharTable where
  decimal : Char → Option ℕ
  isSpace : Char → Bool

section Convert

variable (table : CharTable)

/-- Decimal digits with single underscores between them. -/
def digits : List Char → Option (List ℕ)
  | [] => none
  | [c] => (table.decimal c).map ([·])
  | c :: '_' :: cs => (table.decimal c).bind fun d => (digits cs).map (d :: ·)
  | c :: c' :: cs => (table.decimal c).bind fun d => (digits (c' :: cs)).map (d :: ·)

/-- `int` of a string. More than 4300 digits are refused. -/
def intOfStr (s : List Char) : Option ℤ :=
  let s := ((s.dropWhile table.isSpace).reverse.dropWhile table.isSpace).reverse
  let (negative, s) :=
    match s with
    | '+' :: s => (false, s)
    | '-' :: s => (true, s)
    | s => (false, s)
  (digits table s).bind fun ds =>
    if ds.length ≤ 4300 then
      let n : ℤ := ds.foldl (fun n d => 10 * n + d) 0
      some (if negative then -n else n)
    else none

/-- `int`; `none` is a raise. -/
def Json.toInt : Json → Option ℤ
  | .null => none
  | .bool b => some (if b then 1 else 0)
  | .int n => some n
  | .float x => some (x.num.tdiv x.den)
  | .nan => none
  | .infinity _ => none
  | .str s => intOfStr table s
  | .arr _ => none
  | .obj _ => none

/-- `-1 if k is None else int(k)`. -/
def tier : Option Json → Option ℤ
  | none => some (-1)
  | some .null => some (-1)
  | some k => k.toInt table

end Convert

/-! ## The batch -/

/-- A request: its sampling parameters, if any, and in them the custom ones, if any. -/
structure ClientReq where
  customParams : Option (Option (String → Option Json))

namespace ClientReq

def ktKeepK (r : ClientReq) : Option Json := r.customParams.bind fun cp => cp.bind fun params => params "kt_keep_k"

/-- The request with another value in its custom parameters, or none. -/
def withKeepK (v : Option Json) (r : ClientReq) : ClientReq :=
  let params := (r.customParams.bind id).getD fun _ => none
  ⟨some (some fun key => if key = "kt_keep_k" then v else params key)⟩

@[simp] theorem ktKeepK_withKeepK (v : Option Json) (r : ClientReq) : (r.withKeepK v).ktKeepK = v := rfl

end ClientReq

/-- A batch: its requests, each with the tokens it contributes, in order, and the lengths the batch carries. -/
structure Batch where
  forwardMode : ForwardMode
  layout : List (ClientReq × ℕ)
  extendLens : Option (List ℕ)

namespace Batch

variable (b : Batch)

def numTokens : ℕ := (b.layout.map Prod.snd).sum

def ktKeepK : List (Option Json) := b.layout.map fun r => r.1.ktKeepK

/-- The batch in which one request carries another value. -/
def withKeepK (i : Fin b.layout.length) (v : Option Json) : Batch :=
  { b with layout := b.layout.modify i fun r => (r.1.withKeepK v, r.2) }

/-- `get_model_worker_batch`, with the values converted. -/
def toWorker (ks : List ℤ) : ModelWorkerBatch where
  forwardMode := b.forwardMode
  extendSeqLens := if b.forwardMode.isDecodeOrIdle then none else b.extendLens
  ktKeepK := ks.map some
  numSeqs := b.layout.length
  numTokens := b.numTokens

/-- `init_new`: the rows it attaches, `none` for none; the outer `none` is a raise. -/
def initNew (table : CharTable) : Option (Option (List ℤ)) :=
  (b.ktKeepK.mapM (tier table)).bind fun ks =>
    match tokenCounts (b.toWorker ks) with
    | some counts =>
      if counts.sum = b.numTokens then
        if ∀ k ∈ ks, InInt32 k then (repeatInterleave ks counts).map some else none
      else some none
    | none => some none

/-- The request of each token. -/
def owner : List ℕ := b.layout.zipIdx.flatMap fun r => List.replicate r.1.2 r.2

end Batch

/-! ## The routing -/

/-- `_KT_TOPK_MODE`. -/
inductive TopkMode where
  | drop
  | safe
deriving DecidableEq

/-- What `_kt_topk_experiment` reads beside the rows of the batch. -/
structure Router (T E k : ℕ) (α : Type*) [Field α] [LinearOrder α] where
  mode : TopkMode
  settings : AdaptSettings α
  env : Env α
  srtRow : Argsort (Fin k) α
  srtAll : Argsort (Fin E) α
  sigmoid : α → α
  placement : Placement E
  rows : Fin T → Row E k α
  scores : Fin T → Fin E → α

section Routing

variable {T E k : ℕ} {α : Type*} [Field α] [LinearOrder α]

/-- The drop mode: the dropped weights are zero and the kept ones renormalised. -/
def dropRoute (srt : Argsort (Fin k) α) (row : Row E k α) (K : ℕ) : Row E k α :=
  let newW := fun j => if srt.rank row.weights j < K then row.weights j else 0
  { ids := row.ids
    weights := fun j => newW j / max (∑ i, newW i) (eMinus 9) }

/-- `_kt_topk_experiment`: the ids and weights of each token. -/
def ktTopkExperiment (r : Router T E k α) (keepK : Option (List ℤ)) (t : Fin T) : Row E k α :=
  let K := ktKeepVec r.settings (fun t => (r.rows t).weights) (keepK.map fun rows t => rows.getD t (-1)) t
  match r.mode with
  | .drop => dropRoute r.srtRow (r.rows t) K
  | .safe => safeRoute r.env r.srtRow r.srtAll r.sigmoid r.placement (r.rows t) (r.scores t) K

end Routing

/-! ## A token is routed by its own row -/

section Congr

variable {T E k : ℕ} {α : Type*} [Field α] [LinearOrder α]

theorem ktKeepVec_congr (s : AdaptSettings α) (w : Fin T → Fin k → α) (raw raw' : Fin T → ℤ) {t : Fin T}
    (h : raw t = raw' t) : ktKeepVec s w (some raw) t = ktKeepVec s w (some raw') t := by
  unfold ktKeepVec ktAdaptiveKeepK ktNucleusKeepK speedRaw
  simp only [h]

theorem ktTopkExperiment_congr (r : Router T E k α) {rows rows' : List ℤ} {t : Fin T}
    (h : rows.getD t (-1) = rows'.getD t (-1)) :
    ktTopkExperiment r (some rows) t = ktTopkExperiment r (some rows') t := by
  have hK := ktKeepVec_congr r.settings (fun t => (r.rows t).weights) (fun t => rows.getD t (-1))
    (fun t => rows'.getD t (-1)) h
  unfold ktTopkExperiment
  rw [Option.map_some, Option.map_some, hK]

end Congr

/-! ## The rows that are attached -/

theorem repeatInterleave_map {β γ : Type*} (f : β → γ) (ks : List β) (counts : List ℕ) :
    repeatInterleave (ks.map f) counts = (repeatInterleave ks counts).map (List.map f) := by
  unfold repeatInterleave
  rw [List.length_map]
  split
  · rw [List.zip_map_left, List.flatMap_map, Option.map_some, List.map_flatMap]
    refine congrArg some (List.flatMap_congr fun p _ => ?_)
    rw [List.map_replicate]
    rfl
  · split
    · rw [List.flatMap_map, Option.map_some, List.map_flatMap]
      refine congrArg some (List.flatMap_congr fun p _ => ?_)
      rw [List.map_replicate]
    · rfl

theorem mapM_eq_some_iff {β γ : Type*} (f : β → Option γ) (l : List β) (ks : List γ) :
    l.mapM f = some ks ↔ l.map f = ks.map some := by
  induction l generalizing ks with
  | nil =>
    rw [List.mapM_nil, List.map_nil]
    constructor
    · rintro ⟨⟩
      rfl
    · intro h
      rw [List.map_eq_nil_iff.mp h.symm]
      rfl
  | cons b l ih =>
    rw [List.mapM_cons, List.map_cons]
    cases hb : f b with
    | none =>
      refine iff_of_false (by simp) ?_
      intro h
      cases ks with
      | nil => cases h
      | cons k ks => cases h
    | some c =>
      cases ks with
      | nil => cases l.mapM f <;> simp
      | cons k ks =>
        rw [List.map_cons, List.cons.injEq, ← ih]
        cases l.mapM f <;> simp

namespace Batch

variable (b : Batch)

/-- The counts by which the rows are repeated, where there are rows. -/
def attached : Option (List ℕ) :=
  (tokenCounts (b.toWorker (b.layout.map fun _ => -1))).filter fun counts => counts.sum = b.numTokens

/-- The request whose value the row of each token is. -/
def source : Option (List ℕ) := b.attached.bind fun counts => repeatInterleave (List.range b.layout.length) counts

variable {b}

theorem tokenCounts_toWorker {ks : List ℤ} (h : ks.length = b.layout.length) :
    tokenCounts (b.toWorker ks) = tokenCounts (b.toWorker (b.layout.map fun _ => -1)) := by
  have hlen : (b.toWorker ks).ktKeepK.length = (b.toWorker (b.layout.map fun _ => -1)).ktKeepK.length := by
    simp [toWorker, h]
  unfold tokenCounts
  rw [hlen]
  rfl

/-- Once the values are converted: the rows, in terms of the counts. -/
theorem initNew_of_tiers {table : CharTable} {ks : List ℤ} (h : b.ktKeepK.map (tier table) = ks.map some) :
    b.initNew table =
      match b.attached with
      | some counts => if ∀ k ∈ ks, InInt32 k then (repeatInterleave ks counts).map some else none
      | none => some none := by
  have hlen : ks.length = b.layout.length := by
    have := congrArg List.length h
    simpa [ktKeepK] using this.symm
  unfold initNew attached
  rw [(mapM_eq_some_iff _ _ _).mpr h, Option.bind_some, tokenCounts_toWorker hlen]
  cases tokenCounts (b.toWorker (b.layout.map fun _ => -1)) with
  | none => rfl
  | some counts =>
    by_cases hsum : counts.sum = b.numTokens
    · simp [Option.filter, hsum]
    · simp [Option.filter, hsum]

/-- A batch whose values convert gets the rows of their tiers. -/
theorem initNew_eq_keepK {table : CharTable} {ks : List ℤ} (h : b.ktKeepK.map (tier table) = ks.map some) :
    b.initNew table = KeepK.initNew (b.toWorker ks) := by
  have hlen : (b.toWorker ks).ktKeepK.length = (b.toWorker ks).numSeqs := by
    have := congrArg List.length h
    simpa [ktKeepK, toWorker] using this.symm
  have hks : (b.toWorker ks).ktKeepK.map (fun k => k.getD (-1)) = ks := by
    show (ks.map some).map (fun k => k.getD (-1)) = ks
    rw [List.map_map]
    exact List.map_id' ks
  unfold initNew KeepK.initNew
  rw [(mapM_eq_some_iff _ _ _).mpr h, Option.bind_some, if_pos hlen, hks]
  rfl

/-- What a batch needs to be built: every value converts, and where there are rows each fits an int32 and the counts are
as many as the requests, or one. -/
structure Builds (table : CharTable) (b : Batch) : Prop where
  converts : ∀ k ∈ b.ktKeepK, (tier table k).isSome
  fits : ∀ counts, b.attached = some counts → ∀ k ∈ b.ktKeepK, ∀ n, tier table k = some n → InInt32 n
  counts : ∀ counts, b.attached = some counts → counts.length = b.layout.length ∨ counts.length = 1

theorem repeatInterleave_isSome {β : Type*} {ks : List β} {counts : List ℕ} :
    (repeatInterleave ks counts).isSome ↔ counts.length = ks.length ∨ counts.length = 1 := by
  unfold repeatInterleave
  split
  · next h => exact iff_of_true rfl (.inl h)
  · next h =>
    split
    · exact iff_of_true rfl (.inr rfl)
    · next hne =>
      refine iff_of_false (by simp) ?_
      rintro (h' | h')
      · exact h h'
      · obtain ⟨n, rfl⟩ := List.length_eq_one_iff.mp h'
        exact hne n rfl

/-- The tiers of a batch whose values convert. -/
def tiers (table : CharTable) (b : Batch) : List ℤ := b.ktKeepK.map fun k => (tier table k).getD (-1)

theorem map_tier {table : CharTable} (h : ∀ k ∈ b.ktKeepK, (tier table k).isSome) :
    b.ktKeepK.map (tier table) = (b.tiers table).map some := by
  unfold tiers
  rw [List.map_map]
  refine List.map_congr_left fun k hk => ?_
  obtain ⟨n, hn⟩ := Option.isSome_iff_exists.mp (h k hk)
  simp [hn]

@[simp] theorem length_tiers (table : CharTable) (b : Batch) : (b.tiers table).length = b.layout.length := by
  simp [tiers, ktKeepK]

/-- A batch that can be built gets, for each token, the tier of the request its row is of. -/
theorem Builds.initNew {table : CharTable} (h : b.Builds table) :
    ∃ rows, b.initNew table = some rows ∧
      rows = b.source.map fun source => source.map fun j => (b.tiers table).getD j (-1) := by
  rw [initNew_of_tiers (map_tier h.converts)]
  unfold source
  cases hatt : b.attached with
  | none => exact ⟨none, rfl, rfl⟩
  | some counts =>
    have hint : ∀ k ∈ b.tiers table, InInt32 k := by
      intro n hn
      obtain ⟨k, hk, rfl⟩ := List.mem_map.mp hn
      obtain ⟨n, hn⟩ := Option.isSome_iff_exists.mp (h.converts k hk)
      rw [hn]
      exact h.fits counts hatt k hk n hn
    have hks : b.tiers table = (List.range b.layout.length).map fun j => (b.tiers table).getD j (-1) := by
      refine List.ext_getElem (by simp) fun j hj _ => ?_
      rw [List.getElem_map, List.getElem_range, List.getD_eq_getElem?_getD, List.getElem?_eq_getElem hj,
        Option.getD_some]
    have hrepeat : (repeatInterleave (List.range b.layout.length) counts).isSome := by
      rw [repeatInterleave_isSome, List.length_range]
      exact h.counts counts hatt
    obtain ⟨source, hsource⟩ := Option.isSome_iff_exists.mp hrepeat
    refine ⟨some (source.map fun j => (b.tiers table).getD j (-1)), ?_, ?_⟩
    · dsimp only
      rw [if_pos hint]
      conv_lhs => rw [hks]
      rw [repeatInterleave_map, hsource]
      rfl
    · rw [Option.bind_some, hsource, Option.map_some]

theorem builds_of_initNew {table : CharTable} {rows : Option (List ℤ)} (h : b.initNew table = some rows) :
    b.Builds table := by
  have hks : ∃ ks : List ℤ, b.ktKeepK.map (tier table) = ks.map some := by
    unfold Batch.initNew at h
    obtain ⟨ks, hks, -⟩ := Option.bind_eq_some_iff.mp h
    exact ⟨ks, (mapM_eq_some_iff _ _ _).mp hks⟩
  obtain ⟨ks, hks⟩ := hks
  have hget : ∀ k ∈ b.ktKeepK, ∃ n ∈ ks, tier table k = some n := by
    intro k hk
    have hmem : tier table k ∈ ks.map some := hks ▸ List.mem_map_of_mem hk
    obtain ⟨n, hn, heq⟩ := List.mem_map.mp hmem
    exact ⟨n, hn, heq.symm⟩
  have hlen : ks.length = b.layout.length := by
    have := congrArg List.length hks
    simpa [ktKeepK] using this.symm
  rw [initNew_of_tiers hks] at h
  refine ⟨fun k hk => ?_, fun counts hatt k hk n hn => ?_, fun counts hatt => ?_⟩
  · obtain ⟨n, -, hn⟩ := hget k hk
    simp [hn]
  · rw [hatt] at h
    obtain ⟨n', hn', heq⟩ := hget k hk
    rw [hn, Option.some_inj] at heq
    rw [heq]
    by_contra hint
    simp only [if_neg fun hall : ∀ k ∈ ks, InInt32 k => hint (hall n' hn')] at h
    cases h
  · rw [hatt] at h
    dsimp only at h
    split at h
    · rw [Option.map_eq_some_iff] at h
      obtain ⟨rows', hrows', -⟩ := h
      rw [← hlen]
      exact repeatInterleave_isSome.mp (by rw [hrows']; rfl)
    · cases h

end Batch

/-! ## Two values of one request -/

section TwoValues

variable (table : CharTable) (b : Batch) (i : Fin b.layout.length) (v v' : Option Json)

namespace Batch

@[simp] theorem length_withKeepK : (b.withKeepK i v).layout.length = b.layout.length := by simp [withKeepK]

theorem tokens_withKeepK : (b.withKeepK i v).layout.map Prod.snd = b.layout.map Prod.snd := by
  unfold withKeepK
  refine List.ext_getElem? fun j => ?_
  rw [List.getElem?_map, List.getElem?_map]
  by_cases h : i.val = j
  · rw [← h, List.getElem?_modify_eq, Option.map_eq_map, Option.map_map]
    rfl
  · rw [List.getElem?_modify_ne _ _ h]

@[simp] theorem numTokens_withKeepK : (b.withKeepK i v).numTokens = b.numTokens :=
  congrArg List.sum (b.tokens_withKeepK i v)

theorem getElem?_ktKeepK_withKeepK (j : ℕ) :
    (b.withKeepK i v).ktKeepK[j]? = if j = i then some v else b.ktKeepK[j]? := by
  unfold ktKeepK withKeepK
  rw [List.getElem?_map, List.getElem?_map]
  by_cases h : j = i
  · subst h
    simp
  · rw [if_neg h, List.getElem?_modify_ne _ _ fun h' => h h'.symm]

@[simp] theorem attached_withKeepK : (b.withKeepK i v).attached = b.attached := by
  have hworker : ((b.withKeepK i v).toWorker ((b.withKeepK i v).layout.map fun _ => -1)) =
      b.toWorker (b.layout.map fun _ => -1) := by
    unfold toWorker
    rw [numTokens_withKeepK, length_withKeepK, List.map_const', List.map_const', length_withKeepK]
    rfl
  unfold attached
  rw [hworker, numTokens_withKeepK]

@[simp] theorem source_withKeepK : (b.withKeepK i v).source = b.source := by
  unfold source
  rw [attached_withKeepK, length_withKeepK]

theorem tiers_withKeepK (j : ℕ) :
    ((b.withKeepK i v).tiers table).getD j (-1) =
      if j = i then (tier table v).getD (-1) else (b.tiers table).getD j (-1) := by
  unfold tiers
  rw [List.getD_eq_getElem?_getD, List.getD_eq_getElem?_getD, List.getElem?_map, List.getElem?_map,
    getElem?_ktKeepK_withKeepK]
  split
  · rfl
  · rfl

/-- The row of a token that is taken from request `j`. -/
theorem row_withKeepK {source : List ℕ} {t j : ℕ} (hfrom : source[t]? = some j) :
    (source.map fun j => ((b.withKeepK i v).tiers table).getD j (-1))[t]? =
      some (if j = i then (tier table v).getD (-1) else (b.tiers table).getD j (-1)) := by
  rw [List.getElem?_map, hfrom, Option.map_some, tiers_withKeepK]

theorem mem_ktKeepK_withKeepK : v ∈ (b.withKeepK i v).ktKeepK :=
  List.mem_of_getElem? (by rw [getElem?_ktKeepK_withKeepK, if_pos rfl])

/-- The rows of the tokens of other requests are not taken from request `i`. -/
def Apart : Prop :=
  ∀ source, b.source = some source → ∀ t < b.numTokens, source[t]? = some i.val → b.owner[t]? = some i.val

variable {table b i v v'} in
/-- A token of another request has one row for two values of one tier, and for any where no rows are taken. -/
theorem row_eq_of_apart (hor : tier table v = tier table v' ∨ b.Apart i) {source : List ℕ}
    (hsource : b.source = some source) {t : ℕ} (ht : t < b.numTokens) (howner : b.owner[t]? ≠ some i.val) :
    (source.map fun j => ((b.withKeepK i v).tiers table).getD j (-1))[t]? =
      (source.map fun j => ((b.withKeepK i v').tiers table).getD j (-1))[t]? := by
  cases hfrom : source[t]? with
  | none =>
    rw [List.getElem?_map, List.getElem?_map, hfrom]
    rfl
  | some j =>
    rw [row_withKeepK _ _ _ _ hfrom, row_withKeepK _ _ _ _ hfrom]
    by_cases hj : j = i
    · obtain heq | hapart := hor
      · rw [heq]
      · subst hj
        exact absurd (hapart source hsource t ht hfrom) howner
    · rw [if_neg hj, if_neg hj]

end Batch

/-- Both batches are built, and every token of another request has the same row and is routed the same way. -/
def Isolated {E k : ℕ} {α : Type*} [Field α] [LinearOrder α] (router : Router b.numTokens E k α) : Prop :=
  ∃ rows rows', (b.withKeepK i v).initNew table = some rows ∧ (b.withKeepK i v').initNew table = some rows' ∧
    ∀ t : Fin b.numTokens, b.owner[t.val]? ≠ some i.val →
      (rows.map fun rows => rows[t.val]?) = (rows'.map fun rows => rows[t.val]?) ∧
        ktTopkExperiment router rows t = ktTopkExperiment router rows' t

variable {E k : ℕ} {α : Type*} [Field α] [LinearOrder α]

/-- **Tier isolation.** Two values of one request leave every other request alone exactly when both batches can be
built, and the values are one tier or no row of another request is taken from this one. -/
theorem isolated_iff (router : Router b.numTokens E k α) :
    Isolated table b i v v' router ↔ (b.withKeepK i v).Builds table ∧ (b.withKeepK i v').Builds table ∧
      (tier table v = tier table v' ∨ b.Apart i) := by
  constructor
  · rintro ⟨rows, rows', hrows, hrows', hsame⟩
    have hb := Batch.builds_of_initNew hrows
    have hb' := Batch.builds_of_initNew hrows'
    refine ⟨hb, hb', ?_⟩
    by_contra hnot
    push Not at hnot
    obtain ⟨hne, hapart⟩ := hnot
    unfold Batch.Apart at hapart
    push Not at hapart
    obtain ⟨source, hsource, t, ht, hfrom, howner⟩ := hapart
    obtain ⟨r, hr, hval⟩ := hb.initNew
    obtain ⟨r', hr', hval'⟩ := hb'.initNew
    rw [hrows, Option.some_inj] at hr
    rw [hrows', Option.some_inj] at hr'
    subst hr hr'
    have hrow := (hsame ⟨t, ht⟩ howner).1
    rw [hval, hval', Batch.source_withKeepK, Batch.source_withKeepK, hsource] at hrow
    simp only [Option.map_some, Batch.row_withKeepK _ _ _ _ hfrom, Option.some_inj, if_true] at hrow
    -- both values convert, so the tiers differ
    obtain ⟨n, hn⟩ := Option.isSome_iff_exists.mp (hb.converts v (b.mem_ktKeepK_withKeepK i v))
    obtain ⟨n', hn'⟩ := Option.isSome_iff_exists.mp (hb'.converts v' (b.mem_ktKeepK_withKeepK i v'))
    rw [hn, hn'] at hrow hne
    exact hne (congrArg some hrow)
  · rintro ⟨hb, hb', hor⟩
    obtain ⟨rows, hrows, hval⟩ := hb.initNew
    obtain ⟨rows', hrows', hval'⟩ := hb'.initNew
    refine ⟨rows, rows', hrows, hrows', fun t howner => ?_⟩
    rw [Batch.source_withKeepK] at hval hval'
    cases hsource : b.source with
    | none =>
      rw [hsource] at hval hval'
      rw [hval, hval']
      exact ⟨rfl, rfl⟩
    | some source =>
      rw [hsource, Option.map_some] at hval hval'
      have hrow := Batch.row_eq_of_apart hor hsource t.isLt howner
      rw [hval, hval']
      refine ⟨congrArg some hrow, ktTopkExperiment_congr router ?_⟩
      rw [List.getD_eq_getElem?_getD, List.getD_eq_getElem?_getD, hrow]

variable {b} in
/-- Rows repeated by the tokens of each request are the requests' own: nothing is taken from another. -/
theorem Batch.apart_of_own (h : b.attached = some (b.layout.map Prod.snd)) : b.Apart i := by
  intro rows hrows t _ hfrom
  have hown : b.source = some b.owner := by
    unfold Batch.source Batch.owner
    rw [h, Option.bind_some]
    unfold repeatInterleave
    rw [if_pos (by simp), List.zipIdx_eq_zip_range', ← List.range_eq_range', ← List.zip_swap, List.zip_map_left,
      List.flatMap_map, List.flatMap_map]
    rfl
  rw [hown, Option.some_inj] at hrows
  rw [hrows]
  exact hfrom

variable {b} in
/-- An extend by the lengths of its requests. -/
theorem Batch.attached_extend (hmode : b.forwardMode = .extend) (hlens : b.extendLens = some (b.layout.map Prod.snd)) :
    b.attached = some (b.layout.map Prod.snd) := by
  have hcounts : tokenCounts (b.toWorker (b.layout.map fun _ => -1)) = some (b.layout.map Prod.snd) := by
    unfold tokenCounts toWorker
    simp [hmode, hlens, ForwardMode.isExtend, ForwardMode.isDecodeOrIdle]
  unfold Batch.attached
  rw [hcounts]
  simp [Option.filter, Batch.numTokens]

variable {b} in
/-- A decode, whatever lengths it carries. -/
theorem Batch.attached_decode (i : Fin b.layout.length) (hmode : b.forwardMode = .decode)
    (hone : b.layout.map Prod.snd = List.replicate b.layout.length 1) :
    b.attached = some (b.layout.map Prod.snd) := by
  have hpos : 0 < b.layout.length := i.pos
  have hsum : b.numTokens = b.layout.length := by
    unfold Batch.numTokens
    rw [hone, List.sum_replicate, smul_eq_mul, Nat.mul_one]
  have hcounts : tokenCounts (b.toWorker (b.layout.map fun _ => -1)) = some (b.layout.map Prod.snd) := by
    unfold tokenCounts toWorker
    simp [hmode, hone, hsum, ForwardMode.isExtend, hpos, Nat.div_self hpos]
  unfold Batch.attached
  rw [hcounts]
  simp [Option.filter, Batch.numTokens]

/-- In an extend by its own lengths and in a decode no row is taken from another request. -/
theorem Batch.apart_of_own_lengths
    (h : b.forwardMode = .extend ∧ b.extendLens = some (b.layout.map Prod.snd) ∨
      b.forwardMode = .decode ∧ b.layout.map Prod.snd = List.replicate b.layout.length 1) : b.Apart i := by
  obtain ⟨hmode, hlens⟩ | ⟨hmode, hone⟩ := h
  · exact b.apart_of_own i (attached_extend hmode hlens)
  · exact b.apart_of_own i (attached_decode i hmode hone)

/-- The ASCII digits and white space. -/
def CharTable.ascii : CharTable where
  decimal c := if c.isDigit then some (c.toNat - '0'.toNat) else none
  isSpace c := c.isWhitespace

/-- Two requests of one token each. -/
def twoRequests : Batch := ⟨.extend, [(⟨none⟩, 1), (⟨none⟩, 1)], some [1, 1]⟩

def plainRouter : Router twoRequests.numTokens 1 1 ℚ where
  mode := .safe
  settings := {}
  env := Env.unset
  srtRow := Argsort.stable
  srtAll := Argsort.stable
  sigmoid := id
  placement := ⟨Finset.univ, ∅, ∅, false⟩
  rows _ := ⟨id, fun _ => 1⟩
  scores _ _ := 1

/-- One request sends the string `fast`, and the batch of both raises. -/
theorem not_isolated_str : ¬ Isolated CharTable.ascii twoRequests ⟨0, by decide⟩ (some (.str ['f', 'a', 's', 't'])) none
    plainRouter := by
  rintro ⟨rows, rows', hrows, -⟩
  have hraises : (twoRequests.withKeepK ⟨0, by decide⟩ (some (.str ['f', 'a', 's', 't']))).initNew CharTable.ascii =
      none := by
    decide
  rw [hraises] at hrows
  cases hrows

end TwoValues

end ExpertServe.TierIsolation
