import ExpertServe.Policy.BatchSelect
import Mathlib.Algebra.Field.Rat
import Mathlib.Algebra.Order.Ring.Rat
import Mathlib.Data.Fin.VecNotation

/-!
# What the weighted policy does to a resident set

The weighted selection exchanges challengers of the desired set for residents outside it, and takes the residents
from a pool: the unprotected candidates, or all of them where none is unprotected.

* `swapCount`: how many it exchanges, as a function of the sizes of the candidate lists;
* `selectTopExpertsWeighted_eq`: the selection is the exchange of that many pairs;
* `selectExperts_spec`: under either policy it is a set of as many experts as the GPU holds;
* `selectTopExpertsWeighted_laws`: its size, its swap bounds and its total effective score;
* `evictedExperts_grace`: what protecting more experts does to it.
-/

namespace ExpertServe

open Lib

variable {E : ℕ} {α : Type*} [Field α] [LinearOrder α]

/-- The score the policy ranks by: a resident has a bonus, and a challenger pays for its promotion. -/
def effectiveScore (knobs : CacheKnobs α) (state : CacheState E α) (resident : Finset (Fin E)) (e : Fin E) : α :=
  if e ∈ resident then state.score e + knobs.residentBonus else state.score e - knobs.promotionCost

/-- The best experts, as many as are resident. -/
def desiredExperts (knobs : CacheKnobs α) (srt : Argsort (Fin E) α) (state : CacheState E α)
    (resident : Finset (Fin E)) : Finset (Fin E) :=
  ((srt.desc (effectiveScore knobs state resident) (List.finRange E)).take resident.card).toFinset

/-- The residents that are not among the best. -/
def evictionCandidates (knobs : CacheKnobs α) (srt : Argsort (Fin E) α) (state : CacheState E α)
    (resident : Finset (Fin E)) : Finset (Fin E) := resident \ desiredExperts knobs srt state resident

/-- The candidates outside their grace windows. -/
def unprotectedCandidates (knobs : CacheKnobs α) (srt : Argsort (Fin E) α) (state : CacheState E α)
    (resident : Finset (Fin E)) : Finset (Fin E) :=
  (evictionCandidates knobs srt state resident).filter (· ∉ state.recent)

/-- Where the evicted come from. -/
def evictionPool (knobs : CacheKnobs α) (srt : Argsort (Fin E) α) (state : CacheState E α)
    (resident : Finset (Fin E)) : Finset (Fin E) :=
  if unprotectedCandidates knobs srt state resident = ∅ then evictionCandidates knobs srt state resident
  else unprotectedCandidates knobs srt state resident

/-- The least number of swaps worth making. -/
def minSwapCount (knobs : CacheKnobs α) : ℕ := (max 0 knobs.minSwap).toNat

/-- The largest number of swaps made. -/
def maxSwapCount (knobs : CacheKnobs α) : ℕ := (max 1 knobs.maxSwap).toNat

/-- The number of swaps made with so many candidates to come in and so many to go. -/
def swapCount (knobs : CacheKnobs α) (additions pool : ℕ) : ℕ :=
  let count := min (maxSwapCount knobs) (min additions pool)
  if count < minSwapCount knobs then 0 else count

/-- The pairs exchanged: the best that come in, for the worst of the pool. -/
def chosenSwaps (knobs : CacheKnobs α) (srt : Argsort (Fin E) α) (state : CacheState E α)
    (resident : Finset (Fin E)) : List (Fin E × Fin E) :=
  let additions := desiredExperts knobs srt state resident \ resident
  let pool := evictionPool knobs srt state resident
  ((srt.desc (effectiveScore knobs state resident) (whereTrue additions)).zip
    (srt.asc (effectiveScore knobs state resident) (whereTrue pool))).take (swapCount knobs additions.card pool.card)

/-- The residents the selection drops. -/
def evictedExperts (knobs : CacheKnobs α) (srt : Argsort (Fin E) α) (state : CacheState E α)
    (resident : Finset (Fin E)) : Finset (Fin E) :=
  resident \ (selectTopExpertsWeighted knobs srt state resident resident.card).toFinset

/-- The state in which further experts count as recently seen. -/
def CacheState.mark (state : CacheState E α) (seen : Finset (Fin E)) : CacheState E α :=
  { state with recent := state.recent ∪ seen }

section Candidates

variable {knobs : CacheKnobs α} {srt : Argsort (Fin E) α} {state : CacheState E α} {resident : Finset (Fin E)}

theorem card_desiredExperts : (desiredExperts knobs srt state resident).card = resident.card :=
  card_take_desc srt _ ((Finset.card_le_univ resident).trans_eq (Fintype.card_fin E))

/-- A desired expert scores at least as much as any that is not desired. -/
theorem effectiveScore_le_of_desired {a b : Fin E} (ha : a ∈ desiredExperts knobs srt state resident)
    (hb : b ∉ desiredExperts knobs srt state resident) :
    effectiveScore knobs state resident b ≤ effectiveScore knobs state resident a := by
  unfold desiredExperts at ha hb
  rw [List.mem_toFinset] at ha hb
  exact le_of_mem_take_of_desc (srt.desc_sorted _ _) ha (srt.mem_desc.mpr (List.mem_finRange b)) hb

/-- As many would come in as would go. -/
theorem card_additions : (desiredExperts knobs srt state resident \ resident).card =
    (evictionCandidates knobs srt state resident).card :=
  Finset.card_sdiff_comm card_desiredExperts

theorem unprotectedCandidates_subset :
    unprotectedCandidates knobs srt state resident ⊆ evictionCandidates knobs srt state resident :=
  Finset.filter_subset _ _

theorem evictionPool_subset :
    evictionPool knobs srt state resident ⊆ evictionCandidates knobs srt state resident := by
  unfold evictionPool
  split
  · exact subset_rfl
  · exact unprotectedCandidates_subset

theorem swaps_chosenSwaps (knobs : CacheKnobs α) (srt : Argsort (Fin E) α) (state : CacheState E α)
    (resident : Finset (Fin E)) : Swaps resident (chosenSwaps knobs srt state resident) := by
  refine (Swaps.zip ?_ ?_ (fun e he => ?_) fun e he => ?_).of_pre (List.take_prefix _ _)
  · exact srt.nodup_desc (whereTrue_nodup _)
  · exact srt.nodup_asc (whereTrue_nodup _)
  · exact (Finset.mem_sdiff.mp (mem_whereTrue.mp (srt.mem_desc.mp he))).2
  · exact (Finset.mem_sdiff.mp (evictionPool_subset (mem_whereTrue.mp (srt.mem_asc.mp he)))).1

theorem mem_of_mem_chosenSwaps {p : Fin E × Fin E} (h : p ∈ chosenSwaps knobs srt state resident) :
    p.1 ∈ desiredExperts knobs srt state resident ∧ p.2 ∈ evictionPool knobs srt state resident := by
  obtain ⟨hin, hout⟩ := List.of_mem_zip (List.mem_of_mem_take h)
  refine ⟨?_, mem_whereTrue.mp (srt.mem_asc.mp hout)⟩
  exact (Finset.mem_sdiff.mp (mem_whereTrue.mp (srt.mem_desc.mp hin))).1

end Candidates

/-! ## How many are exchanged -/

section Count

variable {β : Type*} [Field β] (knobs : CacheKnobs β)

theorem swapCount_le (additions pool : ℕ) : swapCount knobs additions pool ≤ min additions pool := by
  unfold swapCount
  dsimp only
  split <;> omega

theorem swapCount_eq_zero_or (additions pool : ℕ) : swapCount knobs additions pool = 0 ∨
    minSwapCount knobs ≤ swapCount knobs additions pool ∧ swapCount knobs additions pool ≤ maxSwapCount knobs := by
  unfold swapCount
  dsimp only
  split <;> omega

/-- A larger pool never means fewer swaps. -/
theorem swapCount_mono (additions : ℕ) {pool pool' : ℕ} (h : pool ≤ pool') :
    swapCount knobs additions pool ≤ swapCount knobs additions pool' := by
  unfold swapCount
  dsimp only
  split <;> split <;> omega

end Count

/-! ## The selection -/

section Selection

variable (knobs : CacheKnobs α) (srt : Argsort (Fin E) α) (state : CacheState E α) (resident : Finset (Fin E))

theorem length_chosenSwaps : (chosenSwaps knobs srt state resident).length =
    swapCount knobs (desiredExperts knobs srt state resident \ resident).card
      (evictionPool knobs srt state resident).card := by
  have hle := swapCount_le knobs (desiredExperts knobs srt state resident \ resident).card
    (evictionPool knobs srt state resident).card
  unfold chosenSwaps
  simp only [List.length_take, List.length_zip, srt.length_desc, srt.length_asc, length_whereTrue]
  omega

/-- Where no swap is made the residents stay. -/
theorem exchange_chosenSwaps_of_none (h : swapCount knobs (desiredExperts knobs srt state resident \ resident).card
    (evictionPool knobs srt state resident).card = 0) :
    exchange resident (chosenSwaps knobs srt state resident) = resident := by
  rw [List.eq_nil_of_length_eq_zero ((length_chosenSwaps knobs srt state resident).trans h), exchange_nil]

/-- The exchange is that of the best additions for the worst of the pool, as many of each as there are swaps. -/
theorem exchange_chosenSwaps {n : ℕ} (hn : n = swapCount knobs (desiredExperts knobs srt state resident \ resident).card
    (evictionPool knobs srt state resident).card) : exchange resident (chosenSwaps knobs srt state resident) =
      (resident \ ((srt.asc (effectiveScore knobs state resident)
        (whereTrue (evictionPool knobs srt state resident))).take n).toFinset) ∪
      ((srt.desc (effectiveScore knobs state resident)
        (whereTrue (desiredExperts knobs srt state resident \ resident))).take n).toFinset := by
  have hfits := swapCount_le knobs (desiredExperts knobs srt state resident \ resident).card
    (evictionPool knobs srt state resident).card
  have hadditions : n ≤ (srt.desc (effectiveScore knobs state resident)
      (whereTrue (desiredExperts knobs srt state resident \ resident))).length := by
    rw [srt.length_desc, length_whereTrue]
    omega
  have hpool : n ≤ (srt.asc (effectiveScore knobs state resident)
      (whereTrue (evictionPool knobs srt state resident))).length := by
    rw [srt.length_asc, length_whereTrue]
    omega
  rw [(swaps_chosenSwaps knobs srt state resident).exchange_eq]
  unfold chosenSwaps
  dsimp only
  rw [← hn, outs_take_zip hadditions hpool, ins_take_zip hadditions hpool]

/-- `pool`, as the source writes it. -/
theorem whereTrue_evictionPool : (if whereTrue (unprotectedCandidates knobs srt state resident) = [] then
    whereTrue (evictionCandidates knobs srt state resident) else
    whereTrue (unprotectedCandidates knobs srt state resident)) =
      whereTrue (evictionPool knobs srt state resident) := by
  simp only [evictionPool, whereTrue_eq_nil]
  split
  · rfl
  · rfl

/-- **What the weighted selection is**: the residents after the chosen exchanges. -/
theorem selectTopExpertsWeighted_eq : selectTopExpertsWeighted knobs srt state resident resident.card =
    whereTrue (exchange resident (chosenSwaps knobs srt state resident)) := by
  have hle : resident.card ≤ E := (Finset.card_le_univ resident).trans_eq (Fintype.card_fin E)
  have hpool := whereTrue_evictionPool knobs srt state resident
  have hnone := fun h => congrArg whereTrue (exchange_chosenSwaps_of_none knobs srt state resident h)
  unfold selectTopExpertsWeighted
  dsimp only
  rw [min_eq_left hle]
  by_cases hzero : resident.card = 0
  · rw [if_pos hzero, hnone]
    · rw [whereTrue_eq_nil.mpr (Finset.card_eq_zero.mp hzero)]
    · have hcard : (desiredExperts knobs srt state resident \ resident).card =
          (evictionCandidates knobs srt state resident).card := card_additions
      have hsub : (evictionCandidates knobs srt state resident).card ≤ resident.card :=
        Finset.card_le_card Finset.sdiff_subset
      have hcount := swapCount_le knobs (desiredExperts knobs srt state resident \ resident).card
        (evictionPool knobs srt state resident).card
      omega
  rw [if_neg hzero, if_neg fun h => h.elim hzero fun h' => h' rfl]
  -- the lists of the source, by their names here
  have heff : (fun e => if e ∈ resident then state.score e + knobs.residentBonus
      else state.score e - knobs.promotionCost) = effectiveScore knobs state resident := rfl
  have hdesired : ((srt.desc (effectiveScore knobs state resident) (List.finRange E)).take resident.card).toFinset =
    desiredExperts knobs srt state resident := rfl
  have hevictions : resident \ desiredExperts knobs srt state resident =
    evictionCandidates knobs srt state resident := rfl
  unfold unprotectedCandidates at hpool
  rw [heff, hdesired, hevictions, filter_whereTrue, hpool, length_whereTrue, length_whereTrue]
  have hmin : max 0 knobs.minSwap = (minSwapCount knobs : ℤ) := by
    unfold minSwapCount
    omega
  have hmax : max 1 knobs.maxSwap = (maxSwapCount knobs : ℤ) := by
    unfold maxSwapCount
    omega
  have hcounts : swapCount knobs (desiredExperts knobs srt state resident \ resident).card
      (evictionPool knobs srt state resident).card = if min (maxSwapCount knobs)
        (min (desiredExperts knobs srt state resident \ resident).card (evictionPool knobs srt state resident).card) <
          minSwapCount knobs then 0 else min (maxSwapCount knobs)
        (min (desiredExperts knobs srt state resident \ resident).card (evictionPool knobs srt state resident).card) :=
    rfl
  rw [hmin, hmax]
  by_cases hfew : ((desiredExperts knobs srt state resident \ resident).card : ℤ) < minSwapCount knobs
  · rw [if_pos hfew, hnone]
    rw [hcounts, if_pos (by omega)]
  rw [if_neg hfew]
  by_cases hempty : whereTrue (evictionPool knobs srt state resident) = []
  · have hcard : (evictionPool knobs srt state resident).card = 0 := by
      rw [← length_whereTrue, hempty, List.length_nil]
    rw [if_pos hempty, hnone]
    rw [hcounts]
    split <;> omega
  rw [if_neg hempty]
  by_cases hcount : min (maxSwapCount knobs : ℤ) (min ((desiredExperts knobs srt state resident \ resident).card : ℤ)
      ((evictionPool knobs srt state resident).card : ℤ)) < minSwapCount knobs
  · rw [if_pos hcount, hnone]
    rw [hcounts, if_pos (by omega)]
  · rw [if_neg hcount, exchange_chosenSwaps]
    rw [hcounts, if_neg (by omega)]
    omega

/-- The weighted selection is a set of as many experts as are resident. -/
theorem selectTopExpertsWeighted_spec :
    ∃ sel : Finset (Fin E), selectTopExpertsWeighted knobs srt state resident resident.card = whereTrue sel ∧
      sel.card = resident.card :=
  ⟨_, selectTopExpertsWeighted_eq knobs srt state resident, (swaps_chosenSwaps knobs srt state resident).card_exchange⟩

/-- **The selection is as large as the resident set**, under either policy. -/
theorem selectExperts_spec (policy : CachePolicy α) (topk : Argsort (Fin E) ℕ) (topkIds : List (Fin E)) :
    ∃ sel : Finset (Fin E), selectExperts policy topk srt topkIds state resident resident.card = whereTrue sel ∧
      sel.card = resident.card := by
  cases policy with
  | frequency =>
    exact ⟨_, rfl, card_take_desc topk _ ((Finset.card_le_univ resident).trans_eq (Fintype.card_fin E))⟩
  | weighted knobs => exact selectTopExpertsWeighted_spec knobs srt state resident

/-- What comes in scores at least as much as what goes for it. -/
theorem effectiveScore_le_of_chosenSwaps {p : Fin E × Fin E} (h : p ∈ chosenSwaps knobs srt state resident) :
    effectiveScore knobs state resident p.2 ≤ effectiveScore knobs state resident p.1 := by
  obtain ⟨hin, hout⟩ := mem_of_mem_chosenSwaps h
  exact effectiveScore_le_of_desired hin (Finset.mem_sdiff.mp (evictionPool_subset hout)).2

/-- **The weighted selection** is a sorted list of as many distinct experts as are resident, makes no swap or
between its two bounds, and does not lose effective score. -/
theorem selectTopExpertsWeighted_laws [IsStrictOrderedRing α] :
    let selected := selectTopExpertsWeighted knobs srt state resident resident.card
    selected.Pairwise (· < ·) ∧ selected.length = resident.card ∧
      (selected = whereTrue resident ∨
        ∃ ps, Swaps resident ps ∧ selected = whereTrue (exchange resident ps) ∧
          max 0 knobs.minSwap ≤ ps.length ∧ (ps.length : ℤ) ≤ max 1 knobs.maxSwap) ∧
      ∑ e ∈ resident, effectiveScore knobs state resident e ≤
        ∑ e ∈ selected.toFinset, effectiveScore knobs state resident e := by
  have hswaps := swaps_chosenSwaps knobs srt state resident
  dsimp only
  rw [selectTopExpertsWeighted_eq, length_whereTrue, whereTrue_toFinset]
  refine ⟨whereTrue_sorted _, hswaps.card_exchange, ?_, ?_⟩
  · have hlen := length_chosenSwaps knobs srt state resident
    rcases swapCount_eq_zero_or knobs (desiredExperts knobs srt state resident \ resident).card
      (evictionPool knobs srt state resident).card with hzero | ⟨hmin, hmax⟩
    · rw [List.eq_nil_of_length_eq_zero (hlen.trans hzero), exchange_nil]
      exact Or.inl rfl
    · refine Or.inr ⟨_, hswaps, rfl, ?_, ?_⟩
      · unfold minSwapCount at hmin
        omega
      · unfold maxSwapCount at hmax
        omega
  · exact hswaps.sum_le_sum_exchange fun p hp => effectiveScore_le_of_chosenSwaps knobs srt state resident hp

end Selection

theorem selectTopExpertsWeighted_laws_pair :
    let knobs : CacheKnobs ℚ := { minSwap := 0, maxSwap := 1 }
    let selected := selectTopExpertsWeighted knobs Argsort.stable ⟨![0, 1], ∅⟩ {0} ({0} : Finset (Fin 2)).card
    selected.Pairwise (· < ·) ∧ selected.length = ({0} : Finset (Fin 2)).card ∧
      (selected = whereTrue {0} ∨ ∃ ps, Swaps {0} ps ∧ selected = whereTrue (exchange {0} ps) ∧
        max 0 knobs.minSwap ≤ ps.length ∧ (ps.length : ℤ) ≤ max 1 knobs.maxSwap) ∧
      ∑ e ∈ {0}, effectiveScore knobs ⟨![0, 1], ∅⟩ {0} e ≤
        ∑ e ∈ selected.toFinset, effectiveScore knobs ⟨![0, 1], ∅⟩ {0} e :=
  selectTopExpertsWeighted_laws { minSwap := 0, maxSwap := 1 } Argsort.stable ⟨![0, 1], ∅⟩ {0}

/-- With both bounds set to zero a swap is made. -/
theorem selectTopExpertsWeighted_overruns :
    ∃ (knobs : CacheKnobs ℚ) (state : CacheState 2 ℚ), knobs.minSwap ≤ knobs.maxSwap ∧
      selectTopExpertsWeighted knobs Argsort.stable state {0} 1 = [1] ∧ knobs.maxSwap < 1 := by
  refine ⟨{ minSwap := 0, maxSwap := 0 }, ⟨![0, 1], ∅⟩, ?_⟩
  decide +kernel

/-! ## Grace -/

section Grace

variable (knobs : CacheKnobs α) (srt : Argsort (Fin E) α) (state : CacheState E α) (resident : Finset (Fin E))

/-- The experts dropped are those of the chosen pairs. -/
theorem evictedExperts_eq : evictedExperts knobs srt state resident = outs (chosenSwaps knobs srt state resident) := by
  have hswaps := swaps_chosenSwaps knobs srt state resident
  have hdis := Finset.disjoint_right.mp hswaps.ins_disjoint
  unfold evictedExperts
  rw [selectTopExpertsWeighted_eq, whereTrue_toFinset]
  ext e
  rw [Finset.mem_sdiff, hswaps.mem_exchange]
  constructor
  · rintro ⟨he, hnot⟩
    by_contra hout
    exact hnot (Or.inl ⟨he, hout⟩)
  · intro hout
    have he : e ∈ resident := hswaps.outs_subset hout
    exact ⟨he, fun h => h.elim (fun h' => h'.2 hout) (hdis he)⟩

theorem card_evictedExperts : (evictedExperts knobs srt state resident).card =
    swapCount knobs (desiredExperts knobs srt state resident \ resident).card
      (evictionPool knobs srt state resident).card := by
  rw [evictedExperts_eq, outs, List.toFinset_card_of_nodup (swaps_chosenSwaps knobs srt state resident).nodup_snd,
    List.length_map, length_chosenSwaps]

/-- Marking more experts leaves fewer candidates unprotected. -/
theorem unprotectedCandidates_mark_subset (seen : Finset (Fin E)) :
    unprotectedCandidates knobs srt (state.mark seen) resident ⊆ unprotectedCandidates knobs srt state resident := by
  intro e he
  obtain ⟨hcand, hnot⟩ := Finset.mem_filter.mp he
  exact Finset.mem_filter.mpr ⟨hcand, fun hrecent => hnot (Finset.mem_union_left _ hrecent)⟩

/-- The pool does not grow by marking experts, unless that protects the last unprotected candidate. -/
theorem evictionPool_mark_subset {seen : Finset (Fin E)}
    (h : unprotectedCandidates knobs srt (state.mark seen) resident ≠ ∅ ∨
      unprotectedCandidates knobs srt state resident = ∅) :
    evictionPool knobs srt (state.mark seen) resident ⊆ evictionPool knobs srt state resident := by
  have hsub := unprotectedCandidates_mark_subset knobs srt state resident seen
  unfold evictionPool
  rcases h with hsome | hnone
  · have hbefore : unprotectedCandidates knobs srt state resident ≠ ∅ := fun h =>
      hsome (Finset.subset_empty.mp (h ▸ hsub))
    rw [if_neg hsome, if_neg hbefore]
    exact hsub
  · have hafter : unprotectedCandidates knobs srt (state.mark seen) resident = ∅ :=
      Finset.subset_empty.mp (hnone ▸ hsub)
    rw [if_pos hafter, if_pos hnone]
    exact subset_rfl

/-- **Grace.** Marking more experts as recently seen evicts no more of them, unless it protects the last unprotected
candidate; and a protected expert goes only when more are swapped than there are unprotected candidates, of which
there are none. -/
theorem evictedExperts_grace :
    (∀ seen : Finset (Fin E), unprotectedCandidates knobs srt (state.mark seen) resident ≠ ∅ ∨
        unprotectedCandidates knobs srt state resident = ∅ →
      (evictedExperts knobs srt (state.mark seen) resident).card ≤ (evictedExperts knobs srt state resident).card) ∧
    ∀ e ∈ evictedExperts knobs srt state resident, e ∈ state.recent →
      unprotectedCandidates knobs srt state resident = ∅ ∧
        (unprotectedCandidates knobs srt state resident).card < (evictedExperts knobs srt state resident).card := by
  refine ⟨fun seen h => ?_, fun e he hrecent => ?_⟩
  · rw [card_evictedExperts, card_evictedExperts]
    exact swapCount_mono knobs _ (Finset.card_le_card (evictionPool_mark_subset knobs srt state resident h))
  · have hpos : 0 < (evictedExperts knobs srt state resident).card := Finset.card_pos.mpr ⟨e, he⟩
    rw [evictedExperts_eq] at he
    obtain ⟨p, hp, rfl⟩ := mem_outs.mp he
    have hpool := (mem_of_mem_chosenSwaps hp).2
    have hnone : unprotectedCandidates knobs srt state resident = ∅ := by
      by_contra hsome
      unfold evictionPool at hpool
      rw [if_neg hsome] at hpool
      exact (Finset.mem_filter.mp hpool).2 hrecent
    exact ⟨hnone, by rwa [hnone, Finset.card_empty]⟩

end Grace

/-- Marking the last two unprotected candidates evicts three experts where two went before; and two protected experts
go while three unprotected residents stay. -/
theorem evictedExperts_grace_jumps :
    (∃ state : CacheState 6 ℚ, (evictedExperts {} Argsort.stable state {0, 1, 2}).card <
      (evictedExperts {} Argsort.stable (state.mark {0, 1}) {0, 1, 2}).card) ∧
    ∃ state : CacheState 7 ℚ, 0 ∈ state.recent ∧ 0 ∈ evictedExperts {} Argsort.stable state {0, 1, 2, 3, 4} ∧
      (evictedExperts {} Argsort.stable state {0, 1, 2, 3, 4}).card ≤ ({0, 1, 2, 3, 4} \ state.recent).card := by
  refine ⟨⟨⟨![0, 0, 0, 5, 5, 5], {2}⟩, ?_⟩, ⟨⟨![0, 0, 9, 9, 9, 5, 5], {0, 1}⟩, ?_⟩⟩
  · decide +kernel
  · decide +kernel

end ExpertServe
