import ExpertServe.Env
import ExpertServe.Lib.LastSeen
import ExpertServe.Policy.BatchLaws
import Mathlib.Tactic.NormNum
import Mathlib.Tactic.Positivity
import Mathlib.Tactic.Ring

/-!
# What the weighted policy has gathered

`ExpertCacheState` takes in one routed batch after the other: scores decay with the number of rows and gain what the
router gave each expert, and four tables hold the row at which an expert was last seen in certain ranks.

* `updateExpertCacheStateFromBatch`, `gather`: one batch, and all batches so far;
* `gather_events`: the tables depend on the rows alone, however they were batched;
* `evictedExperts_recent`: which experts the weighted selection spares, by the rows they were seen in;
* `gather_score_merge`: scores depend on the batches: two that are taken in as one never score an expert lower, unless
  a rank has a negative credit.
-/

namespace ExpertServe

open Lib

variable {E : ℕ} {α : Type*} [Field α] [LinearOrder α]

/-! ## Routed batches -/

/-- A row of router ids and weights. -/
abbrev TopkRow (α : Type*) := List (ℤ × α)

/-- The rows of a batch, all of one width. A row wider than the eight credits would not broadcast. -/
structure RoutedBatch (α : Type*) where
  topK : ℕ
  rows : List (TopkRow α)
  pos : 0 < topK
  narrow : topK ≤ 8
  width : ∀ row ∈ rows, row.length = topK

/-- The ids with their weights, or with `topK, ..., 1` where the router gives none. -/
def routerRow (ids : List ℤ) (weights : Option (List α)) : TopkRow α :=
  ids.zip (weights.getD ((List.range ids.length).map fun i => ((ids.length - i : ℕ) : α)))

/-- `_sorted_router_rows_cpu`: every row by descending weight. -/
def sortedRouterRows (srt : Argsort (ℤ × α) α) (rows : List (TopkRow α)) : List (TopkRow α) :=
  rows.map (srt.desc Prod.snd)

/-- The expert that an id names. -/
def validId (E : ℕ) (id : ℤ) : Option (Fin E) :=
  if h : 0 ≤ id ∧ id < E then some ⟨id.toNat, by omega⟩ else none

/-! ## The state -/

/-- `_KT_EXPERT_CACHE_RANK_CREDIT`, the decay over a number of rows, `0.5 ** (n / max(1, half_life))`, and the
grace windows. -/
structure ScoreKnobs (α : Type*) where
  rankCredit : List α
  decay : ℕ → α
  top2Grace : ℤ := 208
  strongTailGrace : ℤ := 398
  weakTailGrace : ℤ := 104

structure ExpertCacheState (E : ℕ) (α : Type*) where
  scoreCpu : Fin E → α
  lastSeenEventCpu : Fin E → ℤ
  lastTop2EventCpu : Fin E → ℤ
  lastTailEventCpu : Fin E → ℤ
  lastStrongTailEventCpu : Fin E → ℤ
  eventCounter : ℕ
  lastUpdateEvent : ℕ
  updateCount : ℕ

/-- `__post_init__`. -/
def ExpertCacheState.init : ExpertCacheState E α where
  scoreCpu := fun _ => 0
  lastSeenEventCpu := fun _ => -1
  lastTop2EventCpu := fun _ => -1
  lastTailEventCpu := fun _ => -1
  lastStrongTailEventCpu := fun _ => -1
  eventCounter := 0
  lastUpdateEvent := 0
  updateCount := 0

/-- `_scatter_max_int64`. -/
def scatterMaxInt64 (dst : Fin E → ℤ) (src : List (Fin E × ℤ)) : Fin E → ℤ :=
  src.foldl (fun d p => Function.update d p.1 (max (d p.1) p.2)) dst

/-- The columns that each table looks at: all, the first two, those after them, and the third and fourth. -/
def top2Cols (row : TopkRow α) : TopkRow α := row.take 2

def tailCols (row : TopkRow α) : TopkRow α := row.drop 2

def strongTailCols (row : TopkRow α) : TopkRow α := (row.take 4).drop 2

/-- The valid ids in some columns, each with the event of its row. -/
def colEvents (cols : TopkRow α → TopkRow α) (events : List (TopkRow α × ℕ)) : List (Fin E × ℤ) :=
  events.flatMap fun x => (cols x.1).filterMap fun y => (validId E y.1).map fun e => (e, (x.2 : ℤ))

/-- The weight that counts: none of an invalid id, and nothing below zero. -/
def positiveWeight (E : ℕ) (x : ℤ × α) : α := if (validId E x.1).isSome then max x.2 0 else 0

/-- What a row gives an expert: for each of its columns the credit of the rank, in proportion to the weight. -/
def rowCredit (rankCredit : List α) (row : TopkRow α) (e : Fin E) : α :=
  let rowSum := max (row.map (positiveWeight E)).sum (eMinus 12)
  ((rankCredit.zip row).map fun x =>
    if validId E x.2.1 = some e then x.1 * (positiveWeight E x.2 / rowSum) else 0).sum

/-- `_update_expert_cache_state_from_batch`. -/
def updateExpertCacheStateFromBatch (knobs : ScoreKnobs α) (srt : Argsort (ℤ × α) α) (s : ExpertCacheState E α)
    (batch : RoutedBatch α) : ExpertCacheState E α :=
  let rows := sortedRouterRows srt batch.rows
  if rows = [] then s
  else
    let now := s.eventCounter + rows.length
    let delta := now - s.lastUpdateEvent
    let events := rows.zipIdx (s.eventCounter + 1)
    { scoreCpu := fun e => (if 0 < delta then s.scoreCpu e * knobs.decay delta else s.scoreCpu e) +
        (rows.map fun row => rowCredit knobs.rankCredit row e).sum
      lastSeenEventCpu := scatterMaxInt64 s.lastSeenEventCpu (colEvents id events)
      lastTop2EventCpu := scatterMaxInt64 s.lastTop2EventCpu (colEvents top2Cols events)
      lastTailEventCpu := scatterMaxInt64 s.lastTailEventCpu (colEvents tailCols events)
      lastStrongTailEventCpu := scatterMaxInt64 s.lastStrongTailEventCpu (colEvents strongTailCols events)
      eventCounter := now
      lastUpdateEvent := now
      updateCount := s.updateCount + 1 }

/-- The state after all batches so far. -/
def gather (knobs : ScoreKnobs α) (srt : Argsort (ℤ × α) α) (batches : List (RoutedBatch α)) : ExpertCacheState E α :=
  batches.foldl (updateExpertCacheStateFromBatch knobs srt) .init

/-- The rows that were gathered, in order. -/
def gathered (srt : Argsort (ℤ × α) α) (batches : List (RoutedBatch α)) : List (TopkRow α) :=
  batches.flatMap fun batch => sortedRouterRows srt batch.rows

/-- What the weighted selection takes from the state: the scores, and the experts in grace. -/
def ExpertCacheState.toCacheState (knobs : ScoreKnobs α) (s : ExpertCacheState E α) : CacheState E α where
  score := s.scoreCpu
  recent :=
    let recent (last : Fin E → ℤ) (grace : ℤ) := Finset.univ.filter fun e =>
      0 ≤ last e ∧ (s.eventCounter : ℤ) - last e ≤ max 0 grace
    recent s.lastTop2EventCpu knobs.top2Grace ∪ recent s.lastStrongTailEventCpu knobs.strongTailGrace ∪
      recent s.lastTailEventCpu knobs.weakTailGrace

/-! ## Events -/

section Events

variable {knobs : ScoreKnobs α} {srt : Argsort (ℤ × α) α}

/-- The expert stands in one of the columns. -/
def SeenIn (cols : TopkRow α → TopkRow α) (e : Fin E) (row : TopkRow α) : Prop :=
  ∃ x ∈ cols row, validId E x.1 = some e

instance (cols : TopkRow α → TopkRow α) (e : Fin E) : DecidablePred (SeenIn cols e) := fun row =>
  inferInstanceAs (Decidable (∃ x ∈ cols row, validId E x.1 = some e))

omit [Field α] [LinearOrder α] in
theorem scatterMaxInt64_append (dst : Fin E → ℤ) (l l' : List (Fin E × ℤ)) :
    scatterMaxInt64 dst (l ++ l') = scatterMaxInt64 (scatterMaxInt64 dst l) l' := List.foldl_append ..

omit [Field α] [LinearOrder α] in
/-- One row: its event for the experts that stand in the columns. -/
theorem scatterMaxInt64_row (dst : Fin E → ℤ) (row : TopkRow α) (n : ℤ) (e : Fin E) (hle : dst e ≤ n) :
    scatterMaxInt64 dst (row.filterMap fun y => (validId E y.1).map fun e => (e, n)) e =
      if ∃ x ∈ row, validId E x.1 = some e then n else dst e := by
  induction row generalizing dst with
  | nil => simp [scatterMaxInt64]
  | cons y row ih =>
    have hmem : (∃ x ∈ y :: row, validId E x.1 = some e) ↔
        validId E y.1 = some e ∨ ∃ x ∈ row, validId E x.1 = some e := List.exists_mem_cons_iff ..
    rw [List.filterMap_cons]
    cases hy : validId E y.1 with
    | none =>
      refine (ih dst hle).trans (if_congr ?_ rfl rfl)
      simp [hy]
    | some f =>
      show scatterMaxInt64 (Function.update dst f (max (dst f) n)) _ e = _
      by_cases hf : f = e
      · subst hf
        rw [ih _ (by simp [hle]), if_pos (hmem.2 (.inl hy))]
        simp [hle]
      · refine (ih _ (by simpa [Ne.symm hf] using hle)).trans (if_congr ?_ rfl ?_)
        · simp [hy, hf]
        · simp [Ne.symm hf]

omit [Field α] [LinearOrder α] in
/-- A batch: the table holds when each expert was last seen in the columns. -/
theorem scatterMaxInt64_colEvents (cols : TopkRow α → TopkRow α) (e : Fin E) (old rows : List (TopkRow α))
    (dst : Fin E → ℤ) (hdst : dst e = lastSeen (SeenIn cols e) old) :
    scatterMaxInt64 dst (colEvents cols (rows.zipIdx (old.length + 1))) e = lastSeen (SeenIn cols e) (old ++ rows) := by
  induction rows generalizing old dst with
  | nil => simpa [colEvents, scatterMaxInt64] using hdst
  | cons row rows ih =>
    have hle : dst e ≤ ((old.length + 1 : ℕ) : ℤ) := by
      have hle := lastSeen_le (SeenIn cols e) old
      omega
    have hfirst := scatterMaxInt64_row dst (cols row) _ e hle
    have hnext := ih (old ++ [row]) (scatterMaxInt64 dst ((cols row).filterMap fun y =>
      (validId E y.1).map fun e => (e, ((old.length + 1 : ℕ) : ℤ)))) (by
        rw [hfirst, lastSeen_concat, hdst]
        rfl)
    rw [List.zipIdx_cons, colEvents, List.flatMap_cons, scatterMaxInt64_append]
    rw [List.append_assoc, List.singleton_append, List.length_append, List.length_singleton] at hnext
    exact hnext

/-- The state holds what `rows` leave, all tables up to the last row. -/
structure ExpertCacheState.Tracks (s : ExpertCacheState E α) (rows : List (TopkRow α)) : Prop where
  counter : s.eventCounter = rows.length
  update : s.lastUpdateEvent = rows.length
  seen : ∀ e, s.lastSeenEventCpu e = lastSeen (SeenIn id e) rows
  top2 : ∀ e, s.lastTop2EventCpu e = lastSeen (SeenIn top2Cols e) rows
  tail : ∀ e, s.lastTailEventCpu e = lastSeen (SeenIn tailCols e) rows
  strongTail : ∀ e, s.lastStrongTailEventCpu e = lastSeen (SeenIn strongTailCols e) rows

theorem ExpertCacheState.Tracks.update_batch (knobs : ScoreKnobs α) (srt : Argsort (ℤ × α) α) {s : ExpertCacheState E α}
    {rows : List (TopkRow α)} (h : s.Tracks rows) (batch : RoutedBatch α) :
    (updateExpertCacheStateFromBatch knobs srt s batch).Tracks (rows ++ sortedRouterRows srt batch.rows) := by
  unfold updateExpertCacheStateFromBatch
  by_cases hnil : sortedRouterRows srt batch.rows = []
  · simpa [hnil] using h
  · simp only [if_neg hnil]
    have hlen : s.eventCounter + (sortedRouterRows srt batch.rows).length =
        (rows ++ sortedRouterRows srt batch.rows).length := by
      rw [List.length_append, h.counter]
    have htable : ∀ (cols : TopkRow α → TopkRow α) (dst : Fin E → ℤ),
        (∀ e, dst e = lastSeen (SeenIn cols e) rows) → ∀ e,
          scatterMaxInt64 dst (colEvents cols ((sortedRouterRows srt batch.rows).zipIdx (s.eventCounter + 1))) e =
            lastSeen (SeenIn cols e) (rows ++ sortedRouterRows srt batch.rows) := by
      intro cols dst hdst e
      rw [h.counter]
      exact scatterMaxInt64_colEvents cols e rows _ dst (hdst e)
    exact ⟨hlen, hlen, htable id _ h.seen, htable top2Cols _ h.top2, htable tailCols _ h.tail,
      htable strongTailCols _ h.strongTail⟩

theorem gather_concat (batches : List (RoutedBatch α)) (batch : RoutedBatch α) :
    (gather knobs srt (batches ++ [batch]) : ExpertCacheState E α) =
      updateExpertCacheStateFromBatch knobs srt (gather knobs srt batches) batch := by
  simp [gather]

omit [Field α] in
theorem gathered_concat (batches : List (RoutedBatch α)) (batch : RoutedBatch α) :
    gathered srt (batches ++ [batch]) = gathered srt batches ++ sortedRouterRows srt batch.rows := by
  simp [gathered]

theorem gather_tracks (batches : List (RoutedBatch α)) :
    (gather knobs srt batches : ExpertCacheState E α).Tracks (gathered srt batches) := by
  induction batches using List.reverseRecOn with
  | nil => exact ⟨rfl, rfl, fun _ => rfl, fun _ => rfl, fun _ => rfl, fun _ => rfl⟩
  | append_singleton batches batch ih =>
    rw [gather_concat, gathered_concat]
    exact ih.update_batch knobs srt batch

/-- The expert stands in the columns of one of the last rows, the current one and `grace` before it. -/
def SeenWithin (cols : TopkRow α → TopkRow α) (grace : ℤ) (rows : List (TopkRow α)) (e : Fin E) : Prop :=
  ∃ row ∈ rows.drop (rows.length - (grace.toNat + 1)), SeenIn cols e row

instance (cols : TopkRow α → TopkRow α) (grace : ℤ) (rows : List (TopkRow α)) :
    DecidablePred (SeenWithin (E := E) cols grace rows) := fun e =>
  inferInstanceAs (Decidable (∃ row ∈ rows.drop (rows.length - (grace.toNat + 1)), SeenIn cols e row))

/-- What protects an expert. -/
def InGrace (knobs : ScoreKnobs α) (rows : List (TopkRow α)) (e : Fin E) : Prop :=
  SeenWithin top2Cols knobs.top2Grace rows e ∨ SeenWithin strongTailCols knobs.strongTailGrace rows e ∨
    SeenWithin tailCols knobs.weakTailGrace rows e

omit [Field α] [LinearOrder α] in
theorem seenWithin_iff (cols : TopkRow α → TopkRow α) (grace : ℤ) (rows : List (TopkRow α)) (e : Fin E) :
    0 ≤ lastSeen (SeenIn cols e) rows ∧ (rows.length : ℤ) - lastSeen (SeenIn cols e) rows ≤ max 0 grace ↔
      SeenWithin cols grace rows e := by
  have hgrace : max 0 grace = (grace.toNat : ℤ) := by omega
  rw [hgrace]
  exact lastSeen_within_iff (SeenIn cols e) rows grace.toNat

/-- **Events.** After any batches, the tables hold when each expert was last seen in each group of ranks, and an expert
is in grace exactly if it was seen within a window of the last rows. Nothing of it depends on how the rows were
batched. -/
theorem gather_events (knobs : ScoreKnobs α) (srt : Argsort (ℤ × α) α) (batches : List (RoutedBatch α)) (e : Fin E) :
    let s : ExpertCacheState E α := gather knobs srt batches
    let rows := gathered srt batches
    s.lastSeenEventCpu e = lastSeen (SeenIn id e) rows ∧ s.lastTop2EventCpu e = lastSeen (SeenIn top2Cols e) rows ∧
      s.lastTailEventCpu e = lastSeen (SeenIn tailCols e) rows ∧
      s.lastStrongTailEventCpu e = lastSeen (SeenIn strongTailCols e) rows ∧
      (e ∈ (s.toCacheState knobs).recent ↔ InGrace knobs rows e) := by
  intro s rows
  have h : s.Tracks rows := gather_tracks batches
  refine ⟨h.seen e, h.top2 e, h.tail e, h.strongTail e, ?_⟩
  simp only [ExpertCacheState.toCacheState, Finset.mem_union, Finset.mem_filter, Finset.mem_univ, true_and, h.counter,
    h.top2, h.tail, h.strongTail, seenWithin_iff, InGrace, or_assoc]

/-- **Grace over a run.** Whatever was gathered, the weighted selection drops an expert that was seen within a grace
window only if all the residents it wants to drop were. -/
theorem evictedExperts_recent (knobs : ScoreKnobs α) (srt : Argsort (ℤ × α) α) (batches : List (RoutedBatch α))
    (cacheKnobs : CacheKnobs α) (srt' : Argsort (Fin E) α) (resident : Finset (Fin E)) {e : Fin E}
    (he : e ∈ evictedExperts cacheKnobs srt' ((gather knobs srt batches).toCacheState knobs) resident)
    (hgrace : InGrace knobs (gathered srt batches) e) :
    ∀ e' ∈ evictionCandidates cacheKnobs srt' ((gather knobs srt batches).toCacheState knobs) resident,
      InGrace knobs (gathered srt batches) e' := by
  intro e' he'
  have hmem : ∀ f : Fin E, f ∈ ((gather knobs srt batches).toCacheState knobs).recent ↔
      InGrace knobs (gathered srt batches) f := fun f => (gather_events knobs srt batches f).2.2.2.2
  have hnone := ((evictedExperts_grace cacheKnobs srt' _ resident).2 e he ((hmem e).2 hgrace)).1
  by_contra hnot
  have hfree : e' ∈ unprotectedCandidates cacheKnobs srt' ((gather knobs srt batches).toCacheState knobs) resident :=
    Finset.mem_filter.2 ⟨he', fun hrecent => hnot ((hmem e').1 hrecent)⟩
  exact absurd hfree (hnone ▸ Finset.notMem_empty e')

/-- Both residents were seen in the last two rows, and both go, for there is no other. -/
theorem evictedExperts_recent_last :
    let knobs : ScoreKnobs ℚ := { rankCredit := [5], decay := fun _ => 1, top2Grace := 1 }
    let row (id : ℤ) : RoutedBatch ℚ := ⟨1, [[(id, 1)]], by decide, by decide, by simp⟩
    let batches := [row 2, row 3, row 2, row 3, row 0, row 1]
    let s := (gather knobs Argsort.stable batches).toCacheState knobs
    evictionCandidates {} Argsort.stable s ({0, 1} : Finset (Fin 4)) = {0, 1} ∧
      ∀ e ∈ evictionCandidates {} Argsort.stable s ({0, 1} : Finset (Fin 4)),
        InGrace knobs (gathered Argsort.stable batches) e := by
  intro knobs row batches s
  have hevicted : 0 ∈ evictedExperts {} Argsort.stable s ({0, 1} : Finset (Fin 4)) := by decide +kernel
  have hseen : SeenWithin top2Cols knobs.top2Grace (gathered Argsort.stable batches) (0 : Fin 4) := by
    decide +kernel
  exact ⟨by decide +kernel,
    evictedExperts_recent knobs Argsort.stable batches {} Argsort.stable {0, 1} hevicted (Or.inl hseen)⟩

end Events

/-! ## Scores -/

/-- The laws of `math.pow(0.5, n / max(1, half_life))` as a function of `n`. -/
structure ScoreKnobs.Decays (knobs : ScoreKnobs α) : Prop where
  zero : knobs.decay 0 = 1
  add : ∀ m n, knobs.decay (m + n) = knobs.decay m * knobs.decay n
  nonneg : ∀ n, 0 ≤ knobs.decay n
  le_one : ∀ n, knobs.decay n ≤ 1

/-- What a batch gives an expert. -/
def batchCredit (knobs : ScoreKnobs α) (srt : Argsort (ℤ × α) α) (batch : RoutedBatch α) (e : Fin E) : α :=
  ((sortedRouterRows srt batch.rows).map fun row => rowCredit knobs.rankCredit row e).sum

section Scores

variable {knobs : ScoreKnobs α} {srt : Argsort (ℤ × α) α} {s s' : ExpertCacheState E α}
  {rows rows' : List (TopkRow α)}

omit [Field α] in
theorem length_sortedRouterRows (batch : RoutedBatch α) :
    (sortedRouterRows srt batch.rows).length = batch.rows.length := List.length_map ..

/-- A batch decays the scores by its rows and adds its credits. -/
theorem ExpertCacheState.Tracks.score_update_rows (h : s.Tracks rows) {batch : RoutedBatch α} (hrows : batch.rows ≠ [])
    (e : Fin E) : (updateExpertCacheStateFromBatch knobs srt s batch).scoreCpu e =
      s.scoreCpu e * knobs.decay batch.rows.length + batchCredit knobs srt batch e := by
  have hlen : (sortedRouterRows srt batch.rows).length = batch.rows.length := length_sortedRouterRows batch
  have hpos : 0 < batch.rows.length := List.length_pos_of_ne_nil hrows
  have hsorted : sortedRouterRows srt batch.rows ≠ [] := List.ne_nil_of_length_pos (hlen ▸ hpos)
  have hdelta : s.eventCounter + (sortedRouterRows srt batch.rows).length - s.lastUpdateEvent = batch.rows.length := by
    rw [h.counter, h.update, hlen]
    omega
  unfold updateExpertCacheStateFromBatch batchCredit
  simp only [if_neg hsorted, hdelta, if_pos hpos]

/-- So does an empty one. -/
theorem ExpertCacheState.Tracks.score_update (h : s.Tracks rows) (hzero : knobs.decay 0 = 1) (batch : RoutedBatch α)
    (e : Fin E) : (updateExpertCacheStateFromBatch knobs srt s batch).scoreCpu e =
      s.scoreCpu e * knobs.decay batch.rows.length + batchCredit knobs srt batch e := by
  by_cases hrows : batch.rows = []
  · simp [updateExpertCacheStateFromBatch, batchCredit, sortedRouterRows, hrows, hzero]
  · exact h.score_update_rows hrows e

/-- A difference of scores only decays under the same batches. -/
theorem score_foldl_sub (hzero : knobs.decay 0 = 1) (hadd : ∀ m n, knobs.decay (m + n) = knobs.decay m * knobs.decay n)
    (batches : List (RoutedBatch α)) (h : s.Tracks rows) (h' : s'.Tracks rows') (e : Fin E) :
    (batches.foldl (updateExpertCacheStateFromBatch knobs srt) s').scoreCpu e -
        (batches.foldl (updateExpertCacheStateFromBatch knobs srt) s).scoreCpu e =
      (s'.scoreCpu e - s.scoreCpu e) * knobs.decay (gathered srt batches).length := by
  induction batches generalizing s s' rows rows' with
  | nil => simp [gathered, hzero]
  | cons batch batches ih =>
    have hlen : (gathered srt (batch :: batches)).length = batch.rows.length + (gathered srt batches).length := by
      simp [gathered, sortedRouterRows]
    have hrest := ih (h.update_batch knobs srt batch) (h'.update_batch knobs srt batch)
    rw [h.score_update hzero, h'.score_update hzero] at hrest
    rw [List.foldl_cons, List.foldl_cons, hrest, hlen, hadd]
    ring

variable [IsStrictOrderedRing α]

omit [IsStrictOrderedRing α] in
theorem positiveWeight_nonneg (x : ℤ × α) : 0 ≤ positiveWeight E x := by
  unfold positiveWeight
  split
  · exact le_max_right ..
  · exact le_rfl

theorem rowCredit_nonneg {rankCredit : List α} (hcredit : ∀ c ∈ rankCredit, 0 ≤ c) (row : TopkRow α) (e : Fin E) :
    0 ≤ rowCredit rankCredit row e := by
  have hsum : 0 < max (row.map (positiveWeight E)).sum (eMinus 12) := lt_max_of_lt_right (eMinus_pos 12)
  apply List.sum_nonneg
  intro v hv
  obtain ⟨x, hx, rfl⟩ := List.mem_map.1 hv
  split
  · exact mul_nonneg (hcredit x.1 (List.of_mem_zip hx).1) (div_nonneg (positiveWeight_nonneg x.2) hsum.le)
  · exact le_rfl

theorem batchCredit_nonneg (hcredit : ∀ c ∈ knobs.rankCredit, 0 ≤ c) (batch : RoutedBatch α) (e : Fin E) :
    0 ≤ batchCredit knobs srt batch e := by
  apply List.sum_nonneg
  intro v hv
  obtain ⟨row, -, rfl⟩ := List.mem_map.1 hv
  exact rowCredit_nonneg hcredit row e

/-- **Batching matters to the scores.** Two batches in a row that are taken in as one leave an expert what the first of
them gave it, without the decay over the second: never a lower score where no rank has a negative credit, and the same
experts in grace. -/
theorem gather_score_merge (hknobs : knobs.Decays) (before after : List (RoutedBatch α))
    {b b' merged : RoutedBatch α} (hrows : merged.rows = b.rows ++ b'.rows) (e : Fin E) :
    let apart : ExpertCacheState E α := gather knobs srt (before ++ b :: b' :: after)
    let together : ExpertCacheState E α := gather knobs srt (before ++ merged :: after)
    together.scoreCpu e - apart.scoreCpu e =
        batchCredit knobs srt b e * (1 - knobs.decay b'.rows.length) * knobs.decay (gathered srt after).length ∧
      ((∀ c ∈ knobs.rankCredit, 0 ≤ c) → apart.scoreCpu e ≤ together.scoreCpu e) ∧
      (apart.toCacheState knobs).recent = (together.toCacheState knobs).recent := by
  intro apart together
  have hs : (gather knobs srt before : ExpertCacheState E α).Tracks (gathered srt before) := gather_tracks before
  have hb := hs.update_batch knobs srt b
  have hb' := hb.update_batch knobs srt b'
  have hm := hs.update_batch knobs srt merged
  have hlen : merged.rows.length = b.rows.length + b'.rows.length := by rw [hrows, List.length_append]
  have hsum : batchCredit knobs srt merged e = batchCredit knobs srt b e + batchCredit knobs srt b' e := by
    simp [batchCredit, hrows, sortedRouterRows]
  have hapart : apart = after.foldl (updateExpertCacheStateFromBatch knobs srt) (updateExpertCacheStateFromBatch knobs
      srt (updateExpertCacheStateFromBatch knobs srt (gather knobs srt before) b) b') := by
    simp [apart, gather]
  have htogether : together = after.foldl (updateExpertCacheStateFromBatch knobs srt)
      (updateExpertCacheStateFromBatch knobs srt (gather knobs srt before) merged) := by
    simp [together, gather]
  have hdiff : together.scoreCpu e - apart.scoreCpu e =
      batchCredit knobs srt b e * (1 - knobs.decay b'.rows.length) * knobs.decay (gathered srt after).length := by
    rw [hapart, htogether, score_foldl_sub hknobs.zero hknobs.add after hb' hm, hb.score_update hknobs.zero,
      hs.score_update hknobs.zero, hs.score_update hknobs.zero, hlen, hknobs.add, hsum]
    ring
  refine ⟨hdiff, fun hcredit => ?_, ?_⟩
  · have hkept : 0 ≤ 1 - knobs.decay b'.rows.length := sub_nonneg.2 (hknobs.le_one _)
    apply sub_nonneg.1
    rw [hdiff]
    exact mul_nonneg (mul_nonneg (batchCredit_nonneg hcredit b e) hkept) (hknobs.nonneg _)
  · have hsame : gathered srt (before ++ b :: b' :: after) = gathered srt (before ++ merged :: after) := by
      simp [gathered, hrows, sortedRouterRows]
    ext f
    rw [(gather_events knobs srt _ f).2.2.2.2, (gather_events knobs srt _ f).2.2.2.2, hsame]

end Scores

/-- Two rows that name one expert, apart and together. -/
theorem gather_score_merge_pair :
    let knobs : ScoreKnobs ℚ := { rankCredit := [1], decay := fun n => (1 / 2) ^ n }
    let row : TopkRow ℚ := [(0, 1)]
    let one : RoutedBatch ℚ := ⟨1, [row], by decide, by decide, by decide⟩
    let two : RoutedBatch ℚ := ⟨1, [row, row], by decide, by decide, by decide⟩
    let apart : ExpertCacheState 1 ℚ := gather knobs Argsort.stable ([] ++ one :: one :: [])
    let together : ExpertCacheState 1 ℚ := gather knobs Argsort.stable ([] ++ two :: [])
    together.scoreCpu 0 - apart.scoreCpu 0 = batchCredit knobs Argsort.stable one (0 : Fin 1) *
        (1 - knobs.decay one.rows.length) *
          knobs.decay (gathered Argsort.stable ([] : List (RoutedBatch ℚ))).length ∧
      apart.scoreCpu 0 ≤ together.scoreCpu 0 ∧
      (apart.toCacheState knobs).recent = (together.toCacheState knobs).recent := by
  intro knobs row one two apart together
  have hknobs : knobs.Decays := by
    refine ⟨pow_zero _, fun m n => pow_add _ m n, fun n => pow_nonneg (by norm_num) n, fun n => ?_⟩
    exact pow_le_one₀ (by norm_num) (by norm_num)
  have hrows : two.rows = one.rows ++ one.rows := rfl
  obtain ⟨hdiff, hle, hrecent⟩ :=
    @gather_score_merge 1 ℚ _ _ knobs Argsort.stable _ hknobs [] [] one one two hrows 0
  exact ⟨hdiff, hle (by simp [knobs]), hrecent⟩

end ExpertServe
