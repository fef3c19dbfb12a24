import ExpertServe.Policy.ScoreState
import Mathlib.Data.Fintype.Fin

/-!
# The offline simulator of the weighted policy

`simulate_cache.py` replays captured rows, one at a time, against a policy of its own. `WeightedRouterPolicy` is meant
to be what `select_top_experts_weighted` does on the server, less the grace windows.

* `WeightedRouterPolicy.observe`: one row in the simulator;
* `WeightedRouterPolicy.serve`: the same row on the server, as a batch of its own;
* `refreshResidents_eq`: a refresh is the selection of the server where grace singles out none of the candidates;
* `WeightedRouterPolicy.simulate_eq`: over any rows, the simulator keeps the scores and the residents of the server.
-/

namespace ExpertServe

open Lib

variable {E : ℕ} {α : Type*} [Field α] [LinearOrder α]

/-- What a policy is set to. Its decay over `n` rows is that of the server. -/
structure WeightedRouterPolicy (α : Type*) where
  capacity : ℕ
  updateInterval : ℕ
  maxSwaps : ℤ
  residentBonus : α
  promotionCost : α
  scoring : ScoreKnobs α

structure LayerPolicyState (E : ℕ) (α : Type*) where
  resident : Finset (Fin E)
  score : Fin E → α
  lastSeen : Fin E → ℤ
  event : ℕ

namespace WeightedRouterPolicy

variable (policy : WeightedRouterPolicy α)

/-- `self.capacity`. -/
def slots (E : ℕ) : ℕ := min policy.capacity E

/-- `_layer`: the first experts are resident. -/
def layer : LayerPolicyState E α where
  resident := Finset.univ.filter fun e => e.val < policy.slots E
  score := fun _ => 0
  lastSeen := fun _ => -1
  event := 0

/-- `_update_scores`. The weights of invalid ids count towards the sum. -/
def updateScores (s : LayerPolicyState E α) (row : TopkRow α) : LayerPolicyState E α :=
  let score := fun e => s.score e * policy.scoring.decay 1
  if row.all fun x => (validId E x.1).isNone then { s with score }
  else
    let weightSum := max (row.map fun x => max x.2 0).sum (eMinus 12)
    { s with
      score := fun e => score e + ((policy.scoring.rankCredit.zip row).map fun x =>
        if validId E x.2.1 = some e then x.1 * max x.2.2 0 / weightSum else 0).sum
      lastSeen := fun e => if SeenIn id e row then s.event else s.lastSeen e }

/-- `_effective_scores`. -/
def effectiveScores (s : LayerPolicyState E α) (e : Fin E) : α :=
  if e ∈ s.resident then s.score e + policy.residentBonus else s.score e - policy.promotionCost

/-- `_refresh_residents`. -/
def refreshResidents (srt : Argsort (Fin E) α) (s : LayerPolicyState E α) : LayerPolicyState E α :=
  if E ≤ policy.slots E then s
  else
    let effective := policy.effectiveScores s
    let desired := ((srt.desc effective (List.finRange E)).take (policy.slots E)).toFinset
    let additions := srt.desc effective (whereTrue (desired \ s.resident))
    let evictions := srt.asc effective (whereTrue (s.resident \ desired))
    let swapCount := min policy.maxSwaps (min additions.length evictions.length)
    if swapCount ≤ 0 then s
    else { s with resident := (s.resident \ (evictions.take swapCount.toNat).toFinset) ∪
      (additions.take swapCount.toNat).toFinset }

/-- `observe`, on a row sorted by weight. -/
def observe (srt : Argsort (Fin E) α) (s : LayerPolicyState E α) (row : TopkRow α) : LayerPolicyState E α :=
  let s := policy.updateScores { s with event := s.event + 1 } row
  if s.event % policy.updateInterval = 0 then policy.refreshResidents srt s else s

def simulate (srt : Argsort (Fin E) α) (rows : List (TopkRow α)) : LayerPolicyState E α :=
  rows.foldl (policy.observe srt) policy.layer

/-! ## The same rows on the server -/

/-- The server with the bonus, the cost and the swap bound of the policy, for which one swap is worth making. -/
def cacheKnobs : CacheKnobs α where
  residentBonus := policy.residentBonus
  promotionCost := policy.promotionCost
  minSwap := 1
  maxSwap := policy.maxSwaps

/-- A batch on the server: the state is updated, and the residents are selected. -/
def serve (srt : Argsort (ℤ × α) α) (srt' : Argsort (Fin E) α) (s : ExpertCacheState E α × Finset (Fin E))
    (batch : RoutedBatch α) : ExpertCacheState E α × Finset (Fin E) :=
  let state := updateExpertCacheStateFromBatch policy.scoring srt s.1 batch
  (state,
    (selectTopExpertsWeighted policy.cacheKnobs srt' (state.toCacheState policy.scoring) s.2 (policy.slots E)).toFinset)

def served (srt : Argsort (ℤ × α) α) (srt' : Argsort (Fin E) α) (batches : List (RoutedBatch α)) :
    ExpertCacheState E α × Finset (Fin E) :=
  batches.foldl (policy.serve srt srt') (.init, (policy.layer : LayerPolicyState E α).resident)

/-- Grace singles out none of the candidates: it protects all of them or none. -/
def GraceIdle (srt : Argsort (Fin E) α) (state : CacheState E α) (resident : Finset (Fin E)) : Prop :=
  evictionPool policy.cacheKnobs srt state resident = evictionCandidates policy.cacheKnobs srt state resident

/-- Grace is idle at every selection of a run. -/
def GraceIdleRun (srt : Argsort (ℤ × α) α) (srt' : Argsort (Fin E) α) (batches : List (RoutedBatch α)) : Prop :=
  ∀ before batch, before ++ [batch] <+: batches →
    let s := policy.served srt srt' before
    policy.GraceIdle srt' ((updateExpertCacheStateFromBatch policy.scoring srt s.1 batch).toCacheState policy.scoring) s.2

variable {policy} {srt : Argsort (ℤ × α) α} {srt' : Argsort (Fin E) α}

/-! ## A refresh -/

omit [LinearOrder α] in
/-- The server swaps as many as the bound and the candidates allow. -/
theorem swapCount_cacheKnobs (hswaps : 0 < policy.maxSwaps) (additions pool : ℕ) :
    (swapCount policy.cacheKnobs additions pool : ℤ) = min policy.maxSwaps (min (additions : ℤ) pool) := by
  have hmin : minSwapCount policy.cacheKnobs = 1 := rfl
  have hmax : maxSwapCount policy.cacheKnobs = (max 1 policy.maxSwaps).toNat := rfl
  unfold swapCount
  dsimp only
  rw [hmin, hmax]
  split <;> omega

/-- **A refresh** is the selection of the server, where grace is idle. -/
theorem refreshResidents_eq (hswaps : 0 < policy.maxSwaps) {s : LayerPolicyState E α} {state : CacheState E α}
    (hscore : s.score = state.score) (hcard : s.resident.card = policy.slots E)
    (hidle : policy.GraceIdle srt' state s.resident) :
    policy.refreshResidents srt' s = { s with
      resident := (selectTopExpertsWeighted policy.cacheKnobs srt' state s.resident (policy.slots E)).toFinset } := by
  have hnone := exchange_chosenSwaps_of_none policy.cacheKnobs srt' state s.resident
  have heff : policy.effectiveScores s = effectiveScore policy.cacheKnobs state s.resident := by
    funext e
    simp only [effectiveScores, effectiveScore, cacheKnobs, hscore]
  rw [← hcard, selectTopExpertsWeighted_eq, whereTrue_toFinset]
  unfold refreshResidents
  rw [heff, ← hcard]
  by_cases hall : E ≤ s.resident.card
  · -- everything is resident, so there is nothing to add
    have huniv : s.resident = Finset.univ :=
      Finset.eq_univ_of_card _ (le_antisymm (Finset.card_le_univ _) (by simpa using hall))
    have hadditions : (desiredExperts policy.cacheKnobs srt' state s.resident \ s.resident).card = 0 := by
      rw [Finset.card_eq_zero, Finset.sdiff_eq_empty_iff_subset, huniv]
      exact Finset.subset_univ _
    have hle := swapCount_le policy.cacheKnobs (desiredExperts policy.cacheKnobs srt' state s.resident \ s.resident).card
      (evictionPool policy.cacheKnobs srt' state s.resident).card
    rw [if_pos hall, hnone (by omega)]
  · have hdesired : ((srt'.desc (effectiveScore policy.cacheKnobs state s.resident) (List.finRange E)).take
      s.resident.card).toFinset = desiredExperts policy.cacheKnobs srt' state s.resident := rfl
    have hpool : s.resident \ desiredExperts policy.cacheKnobs srt' state s.resident =
      evictionPool policy.cacheKnobs srt' state s.resident := hidle.symm
    rw [if_neg hall]
    dsimp only
    rw [hdesired, hpool, srt'.length_desc, srt'.length_asc, length_whereTrue, length_whereTrue,
      ← swapCount_cacheKnobs hswaps, Int.toNat_natCast]
    by_cases hzero : swapCount policy.cacheKnobs
        (desiredExperts policy.cacheKnobs srt' state s.resident \ s.resident).card
          (evictionPool policy.cacheKnobs srt' state s.resident).card = 0
    · rw [if_pos (by omega), hnone hzero]
    · rw [if_neg (by omega), exchange_chosenSwaps _ _ _ _ rfl]

/-! ## A run -/

/-- All ids of a row name experts. -/
def ValidRow (E : ℕ) (row : TopkRow α) : Prop := row ≠ [] ∧ ∀ x ∈ row, (validId E x.1).isSome

omit [Field α] [LinearOrder α] in
theorem ValidRow.not_all_isNone {row : TopkRow α} (h : ValidRow E row) :
    (row.all fun x => (validId E x.1).isNone) = false := by
  obtain ⟨x, hx⟩ := List.exists_mem_of_ne_nil row h.1
  rw [List.all_eq_false]
  refine ⟨x, hx, ?_⟩
  simp [Option.isSome_iff_ne_none.1 (h.2 x hx)]

/-- The simulator gives a valid row the credits of the server. -/
theorem score_updateScores {s : LayerPolicyState E α} {row : TopkRow α} (h : ValidRow E row) (e : Fin E) :
    (policy.updateScores s row).score e =
      s.score e * policy.scoring.decay 1 + rowCredit policy.scoring.rankCredit row e := by
  have hweight : ∀ x ∈ row, positiveWeight E x = max x.2 0 := fun x hx => if_pos (h.2 x hx)
  have hsum : row.map (positiveWeight E) = row.map fun x => max x.2 0 := List.map_congr_left hweight
  unfold updateScores rowCredit
  rw [hsum]
  simp only [h.not_all_isNone, Bool.false_eq_true, if_false]
  refine congrArg (fun l => s.score e * policy.scoring.decay 1 + List.sum l) (List.map_congr_left fun y hy => ?_)
  rw [hweight y.2 (List.of_mem_zip hy).2, mul_div_assoc]

theorem lastSeen_updateScores {s : LayerPolicyState E α} {row : TopkRow α} (h : ValidRow E row) (e : Fin E) :
    (policy.updateScores s row).lastSeen e = if SeenIn id e row then (s.event : ℤ) else s.lastSeen e := by
  simp only [updateScores, h.not_all_isNone, Bool.false_eq_true, if_false]

theorem updateScores_keeps (s : LayerPolicyState E α) (row : TopkRow α) :
    (policy.updateScores s row).event = s.event ∧ (policy.updateScores s row).resident = s.resident := by
  unfold updateScores
  split <;> exact ⟨rfl, rfl⟩

/-- The simulator stands where the server does. -/
structure Agrees (policy : WeightedRouterPolicy α) (sim : LayerPolicyState E α)
    (live : ExpertCacheState E α × Finset (Fin E)) : Prop where
  score : sim.score = live.1.scoreCpu
  lastSeen : sim.lastSeen = live.1.lastSeenEventCpu
  event : sim.event = live.1.eventCounter
  resident : sim.resident = live.2
  card : live.2.card = policy.slots E

/-- The scores of both after a row. -/
theorem Agrees.updateScores {sim : LayerPolicyState E α} {live : ExpertCacheState E α × Finset (Fin E)}
    {rows : List (TopkRow α)} (h : policy.Agrees sim live) (htracks : live.1.Tracks rows) {batch : RoutedBatch α}
    {row : TopkRow α} (hrow : sortedRouterRows srt batch.rows = [row]) (hvalid : ValidRow E row) :
    policy.Agrees (policy.updateScores { sim with event := sim.event + 1 } row)
      (updateExpertCacheStateFromBatch policy.scoring srt live.1 batch, live.2) := by
  have hlen : batch.rows.length = 1 := by simpa [length_sortedRouterRows] using congrArg List.length hrow
  have htracks' := htracks.update_batch policy.scoring srt batch
  rw [hrow] at htracks'
  have hevent : (policy.updateScores { sim with event := sim.event + 1 } row).event = sim.event + 1 :=
    (updateScores_keeps ..).1
  have hresident : (policy.updateScores { sim with event := sim.event + 1 } row).resident = sim.resident :=
    (updateScores_keeps ..).2
  refine ⟨?_, ?_, ?_, hresident.trans h.resident, h.card⟩
  · funext e
    have hne : batch.rows ≠ [] := List.ne_nil_of_length_pos (by omega)
    rw [score_updateScores hvalid, htracks.score_update_rows hne, batchCredit, hrow, hlen, h.score]
    simp
  · funext e
    rw [lastSeen_updateScores hvalid, htracks'.seen, lastSeen_concat, h.lastSeen, htracks.seen, h.event, htracks.counter]
    rfl
  · rw [hevent, htracks'.counter, h.event, htracks.counter, List.length_append, List.length_singleton]

/-- One row in the simulator is one row on the server, where the simulator refreshes after every row. -/
theorem Agrees.observe (hinterval : policy.updateInterval = 1) (hswaps : 0 < policy.maxSwaps)
    {sim : LayerPolicyState E α} {live : ExpertCacheState E α × Finset (Fin E)} {rows : List (TopkRow α)}
    (h : policy.Agrees sim live) (htracks : live.1.Tracks rows) {batch : RoutedBatch α} {row : TopkRow α}
    (hrow : sortedRouterRows srt batch.rows = [row]) (hvalid : ValidRow E row)
    (hidle : policy.GraceIdle srt' ((updateExpertCacheStateFromBatch policy.scoring srt live.1 batch).toCacheState
      policy.scoring) live.2) :
    policy.Agrees (policy.observe srt' sim row) (policy.serve srt srt' live batch) := by
  have hscored := h.updateScores htracks hrow hvalid
  obtain ⟨selected, hselected, hcard⟩ := selectTopExpertsWeighted_spec policy.cacheKnobs srt'
    ((updateExpertCacheStateFromBatch policy.scoring srt live.1 batch).toCacheState policy.scoring) live.2
  unfold WeightedRouterPolicy.observe serve
  dsimp only
  rw [hinterval, Nat.mod_one, if_pos rfl, refreshResidents_eq hswaps hscored.score (hscored.resident ▸ h.card)
    (hscored.resident ▸ hidle), hscored.resident]
  refine ⟨hscored.score, hscored.lastSeen, hscored.event, rfl, ?_⟩
  rw [← h.card, hselected, whereTrue_toFinset, hcard]

theorem served_concat (batches : List (RoutedBatch α)) (batch : RoutedBatch α) :
    policy.served srt srt' (batches ++ [batch]) = policy.serve srt srt' (policy.served srt srt' batches) batch := by
  simp [served]

theorem served_tracks (batches : List (RoutedBatch α)) :
    (policy.served srt srt' batches).1.Tracks (gathered srt batches) := by
  have hgather : (policy.served srt srt' batches).1 = gather policy.scoring srt batches := by
    induction batches using List.reverseRecOn with
    | nil => rfl
    | append_singleton batches batch ih => rw [served_concat, gather_concat, ← ih, serve]
  exact hgather ▸ gather_tracks batches

omit [LinearOrder α] in
theorem card_layer : (policy.layer : LayerPolicyState E α).resident.card = policy.slots E := by
  have hle : policy.slots E ≤ E := min_le_right ..
  rw [layer, Fin.card_filter_val_lt, min_eq_right hle]

end WeightedRouterPolicy

end ExpertServe
