import ExpertServe.Lib.PairSwap
import ExpertServe.Lib.Rank
import Mathlib.Algebra.Field.Basic
import Mathlib.Algebra.Order.Ring.Defs
import Mathlib.Data.List.Count
import Mathlib.Data.Rat.Cast.Defs

/-!
# The selection after a bulk prefill

`_update_gpu_experts_from_batch` selects the experts the GPU is to hold, on rank 0, by one of two policies: the
most frequent experts of the batch, or the best scores of a cache that has seen every batch so far.

* `selectTopExpertsFromBatch`, `selectTopExpertsWeighted`: the two selections;
* `selectExperts`: the selection of a policy.
-/

namespace ExpertServe

open Lib

variable {E : ℕ} {α : Type*} [Field α] [LinearOrder α]

/-- What the weighted policy is set to, with the defaults of the source. -/
structure CacheKnobs (α : Type*) [Field α] where
  residentBonus : α := 0.25
  promotionCost : α := 0.10
  minSwap : ℤ := 2
  maxSwap : ℤ := 8

/-- `SGLANG_KT_EXPERT_CACHE_POLICY`. -/
inductive CachePolicy (α : Type*) [Field α] where
  | frequency
  | weighted (knobs : CacheKnobs α)

/-- What the cache has gathered of a layer, the batch at hand included: the decayed scores, and the experts whose
last events lie within their grace windows. -/
structure CacheState (E : ℕ) (α : Type*) where
  score : Fin E → α
  recent : Finset (Fin E)

/-- `select_top_experts_from_batch`: the experts with the most occurrences among the valid ids of the batch. -/
def selectTopExpertsFromBatch (topk : Argsort (Fin E) ℕ) (topkIds : List (Fin E)) (numGpuExperts : ℕ) :
    List (Fin E) :=
  whereTrue ((topk.desc (fun e => topkIds.count e) (List.finRange E)).take numGpuExperts).toFinset

/-- `select_top_experts_weighted`: the residents with the best challengers exchanged for the worst evictions,
those in grace last; nothing is exchanged where fewer than `minSwap` would be. -/
def selectTopExpertsWeighted (knobs : CacheKnobs α) (srt : Argsort (Fin E) α) (state : CacheState E α)
    (resident : Finset (Fin E)) (numGpuExperts : ℕ) : List (Fin E) :=
  let k := min numGpuExperts E
  let minSwap := max 0 knobs.minSwap
  let maxSwap := max 1 knobs.maxSwap
  if k = 0 then []
  else
    let effective := fun e =>
      if e ∈ resident then state.score e + knobs.residentBonus else state.score e - knobs.promotionCost
    let desired := ((srt.desc effective (List.finRange E)).take k).toFinset
    if resident.card = 0 ∨ resident.card ≠ k then whereTrue desired
    else
      let additions := whereTrue (desired \ resident)
      let evictions := whereTrue (resident \ desired)
      if additions.length < minSwap then whereTrue resident
      else
        let unprotected := evictions.filter (· ∉ state.recent)
        let pool := if unprotected = [] then evictions else unprotected
        if pool = [] then whereTrue resident
        else
          let swapCount := min maxSwap (min additions.length pool.length)
          if swapCount < minSwap then whereTrue resident
          else
            let chosenAdditions := (srt.desc effective additions).take swapCount.toNat
            let chosenEvictions := (srt.asc effective pool).take swapCount.toNat
            whereTrue ((resident \ chosenEvictions.toFinset) ∪ chosenAdditions.toFinset)

/-- The selection of a policy. -/
def selectExperts (policy : CachePolicy α) (topk : Argsort (Fin E) ℕ) (srt : Argsort (Fin E) α)
    (topkIds : List (Fin E)) (state : CacheState E α) (resident : Finset (Fin E)) (numGpuExperts : ℕ) : List (Fin E) :=
  match policy with
  | .frequency => selectTopExpertsFromBatch topk topkIds numGpuExperts
  | .weighted knobs => selectTopExpertsWeighted knobs srt state resident numGpuExperts

section Select

variable {resident : Finset (Fin E)}

omit [Field α] in
/-- The first `k` of all experts in any order are `k` experts. -/
theorem card_take_desc {β : Type*} [LinearOrder β] (srt : Argsort (Fin E) β) (f : Fin E → β) {k : ℕ} (hk : k ≤ E) :
    ((srt.desc f (List.finRange E)).take k).toFinset.card = k := by
  have hnodup : (srt.desc f (List.finRange E)).Nodup := srt.nodup_desc (List.nodup_finRange E)
  rw [List.toFinset_card_of_nodup (hnodup.sublist (List.take_sublist _ _)), List.length_take, srt.length_desc,
    List.length_finRange, min_eq_left hk]

end Select

end ExpertServe
