import ExpertServe.Forward.Prefetch
import ExpertServe.Lib.Run
import Mathlib.Algebra.Order.Field.Basic
import Mathlib.Algebra.Order.Monoid.Unbundled.WithTop
import Mathlib.Data.Finset.Max
import Mathlib.Data.Fintype.Prod

/-!
# The fused predictor kernel with slot reuse

`k_pred_fused` scores the lookahead router's rows, counts the demand for experts that are not resident, and lists one
expert for each landing slot. A landing slot keeps its bytes until the next gather writes it, so the kernel carries
from call to call which expert each slot holds, and in mode 2 a slot whose expert is wanted again is kept and not
fetched.

* `LandingSlots.predFused`: one call of the kernel, in each of the three modes;
* `LandingSlots.streamExperts`: the gather of the slots it lists;
* `LandingSlots.HoldAccurate`: `hold` names distinct experts, and each slot holds the expert it names;
* `LandingSlots.Covers`: what a call in mode 2 followed by its gather reports;
* `predFused_run`: both hold along every sequence of calls.
-/

namespace ExpertServe

open Lib

variable {E S : ℕ} {α : Type*} [Field α] [LinearOrder α]

/-! ## The kernel -/

/-- `reuse`: 0 off, 1 measure only, 2 act. -/
inductive Reuse where
  | off
  | measure
  | act
deriving DecidableEq

/-- What one call of the kernel and of the gather after it are given. A score `⊥` is a NaN, never picked. -/
structure PredCall (E : ℕ) (α : Type*) where
  logits : List (Fin E → WithBot α)
  bias : Fin E → WithBot α
  resident : Finset (Fin E)
  topk : ℕ
  topP : ℕ
  slotBase : ℕ
  selective : Bool
  route : Bool
  cpuskip : Bool
  /-- The experts with a row in the pointer table that is not zero. -/
  mapped : Finset (Fin E)

/-- The landing slots of a layer, the record the kernel keeps of them and what it publishes. `content` is the expert
whose row of the pointer table was gathered into the slot last. -/
structure LandingSlots (E S : ℕ) where
  content : Fin S → Option (Fin E)
  hold : Fin S → Option (Fin E)
  holdScore : Fin S → ℕ
  sel : Fin S → Option (Fin E)
  landed : Finset (Fin E)
  landedCpu : Finset (Fin E)
  index : Fin E → ℤ

/-- The buffers as `create_weights` allocates them. -/
def LandingSlots.boot (E S : ℕ) : LandingSlots E S where
  content _ := none
  hold _ := none
  holdScore _ := 0
  sel _ := none
  landed := ∅
  landedCpu := ∅
  index _ := 0

/-- `-1e30f`, the value a pick has to exceed. -/
def unpicked : WithBot α := ((-1e30 : α) : WithBot α)

namespace PredCall

variable (sigmoid : α → α) (c : PredCall E α)

/-- The experts one warp predicts for its token: the router's `topk` by score and bias, lower id winning ties, and
among those the `topP` by score alone, first pick winning ties. -/
def predictRow (row : Fin E → WithBot α) : List (Fin E) :=
  let score := fun e => WithBot.map sigmoid (row e)
  let choice := fun e => score e + c.bias e
  let K := min c.topk 64
  let picks := ((Argsort.stable.order choice).take K).filter fun e => unpicked < choice e
  ((Argsort.stable.desc score picks).take (min c.topP K)).filter fun e => unpicked < score e

/-- The experts predicted for all tokens, one entry for each token that asks. -/
def predictedIds : List (Fin E) := c.logits.flatMap (c.predictRow sigmoid)

/-- `s_dem`. -/
def demand : Fin E → ℕ := pfDemand c.resident (c.predictedIds sigmoid)

/-- The experts some token wants that are not resident. -/
def wanted : Finset (Fin E) := (c.predictedIds sigmoid).toFinset \ c.resident

/-- A layer that wants more experts than it has slots is skipped in selective mode. -/
def Skips (S : ℕ) : Prop := c.selective = true ∧ S < nWant (c.demand sigmoid)

instance : Decidable (c.Skips sigmoid S) := inferInstanceAs (Decidable (_ ∧ _))

/-- The kernel's checks. -/
def Rejected (S : ℕ) : Prop := E ≠ 256 ∨ 16 < S ∨ 8 < c.logits.length ∨ 64 < c.topk

instance : Decidable (c.Rejected S) := inferInstanceAs (Decidable (_ ∨ _))

end PredCall

/-- The keep pass: in mode 2 each slot that is the first to hold a wanted expert. -/
def keptMask (reuse : Reuse) (demand : Fin E → ℕ) (hold : Fin S → Option (Fin E)) : Finset (Fin S) :=
  Finset.univ.filter fun k => reuse = .act ∧ ∃ e, hold k = some e ∧ 0 < demand e ∧ ∀ k' < k, hold k' ≠ some e

/-- The demand the fill pass sees: kept experts removed. -/
def demandLeft (keep : Finset (Fin S)) (hold : Fin S → Option (Fin E)) (demand : Fin E → ℕ) : Fin E → ℕ := fun e =>
  if ∃ k ∈ keep, hold k = some e then 0 else demand e

/-- `order`: the slots that are not kept, weakest first. -/
def fillOrder (keep : Finset (Fin S)) (holdScore : Fin S → ℕ) : List (Fin S) :=
  Argsort.stable.asc holdScore ((List.finRange S).filter (· ∉ keep))

/-- The fill pass: each slot in order takes the strongest demand that remains, lower id winning ties. -/
def fill (skip : Prop) [Decidable skip] (keep : Finset (Fin S)) (holdScore : Fin S → ℕ) (left : Fin E → ℕ) (k : Fin S) :
    Option (Fin E) :=
  if k ∈ keep then none
  else ((Argsort.stable.order left)[(fillOrder keep holdScore).idxOf k]?).filter fun e => 0 < left e ∧ ¬ skip

/-- The expert each slot is published to hold: the one it keeps, or the one listed for it. -/
def carries (keep : Finset (Fin S)) (hold sel : Fin S → Option (Fin E)) (k : Fin S) : Option (Fin E) :=
  if k ∈ keep then hold k else sel k

namespace LandingSlots

variable (sigmoid : α → α)

/-- One call of `k_pred_fused`; `none` is a failed check. -/
def predFused (reuse : Reuse) (c : PredCall E α) (s : LandingSlots E S) : Option (LandingSlots E S) :=
  if c.Rejected S then none
  else
    let demand := c.demand sigmoid
    let keep := keptMask reuse demand s.hold
    let sel := fill (c.Skips sigmoid S) keep s.holdScore (demandLeft keep s.hold demand)
    let reported := landings (carries keep s.hold sel)
    let covered := (reported.map Prod.snd).toFinset
    some
      { s with
        sel := sel
        landed := if c.route then covered else ∅
        landedCpu := if c.cpuskip then covered else ∅
        index := updates s.index (reported.map fun p => (p.2, (c.slotBase + p.1 : ℤ)))
        hold := fun k => if reuse = .off then s.hold k else (sel k).or (s.hold k)
        holdScore := fun k =>
          if reuse = .off then s.holdScore k
          else if k ∈ keep then min (s.holdScore k + 4) 1024
          else if (sel k).isSome then 2
          else s.holdScore k - 1 }

/-- `stream_experts` over the selection; `none` is the fault of a zero row. -/
def streamExperts (mapped : Finset (Fin E)) (s : LandingSlots E S) : Option (LandingSlots E S) :=
  if ∀ p ∈ landings s.sel, p.2 ∈ mapped then some { s with content := fun k => (s.sel k).or (s.content k) } else none

/-- A call in mode 2 and the gather after it; `none` is a process that has ended. -/
def predStep (s : Option (LandingSlots E S)) (c : PredCall E α) : Option (LandingSlots E S) :=
  (s.bind (predFused sigmoid .act c)).bind (streamExperts c.mapped)

/-- `hold` names distinct experts, and each slot physically holds the expert it names. -/
structure HoldAccurate (s : LandingSlots E S) : Prop where
  distinct : ∀ k k' e, s.hold k = some e → s.hold k' = some e → k = k'
  content : ∀ k e, s.hold k = some e → s.content k = some e

/-- The slots a call keeps. -/
def keptSlots (c : PredCall E α) (s : LandingSlots E S) : Finset (Fin S) := keptMask .act (c.demand sigmoid) s.hold

/-- The slots a call lists for the gather. -/
def fetchedSlots (s : LandingSlots E S) : Finset (Fin S) := Finset.univ.filter fun k => (s.sel k).isSome

/-- What a call in mode 2 on `s` and its gather leave in `s'`. -/
structure Covers (c : PredCall E α) (s s' : LandingSlots E S) : Prop where
  /-- Where a reported expert is said to be, it is. -/
  honest : ∀ e ∈ s'.landed ∪ s'.landedCpu, ∃ k : Fin S, s'.index e = c.slotBase + k ∧ s'.content k = some e
  disjoint : Disjoint (s.keptSlots sigmoid c) s'.fetchedSlots
  card_le : (s.keptSlots sigmoid c).card + s'.fetchedSlots.card ≤ S
  /-- No expert is both kept and fetched. -/
  once : ∀ k ∈ s.keptSlots sigmoid c, ∀ k', s'.sel k' ≠ s.hold k
  subset : s'.landed ⊆ c.wanted sigmoid ∧ s'.landedCpu ⊆ c.wanted sigmoid
  full : (c.wanted sigmoid).card ≤ S →
    (c.route = true → s'.landed = c.wanted sigmoid) ∧ (c.cpuskip = true → s'.landedCpu = c.wanted sigmoid)
  /-- Mode 1, from any state, reports no more. -/
  measure_le : ∀ s₀ s₁ : LandingSlots E S, s₀.predFused sigmoid .measure c = some s₁ →
    s₁.landed.card ≤ s'.landed.card ∧ s₁.landedCpu.card ≤ s'.landedCpu.card

end LandingSlots

/-! ## One call -/

section Call

variable {keep : Finset (Fin S)} {hold : Fin S → Option (Fin E)} {holdScore : Fin S → ℕ} {demand left : Fin E → ℕ}
  {skip : Prop} [Decidable skip] {reuse : Reuse} {k k' : Fin S} {e : Fin E}

theorem mem_keptMask : k ∈ keptMask reuse demand hold ↔
    reuse = .act ∧ ∃ e, hold k = some e ∧ 0 < demand e ∧ ∀ k' < k, hold k' ≠ some e := by
  simp [keptMask]

theorem keptMask_of_ne_act (h : reuse ≠ .act) : keptMask reuse demand hold = ∅ := by
  simp [keptMask, h]

/-- No expert is kept twice. -/
theorem keptMask_inj (hk : k ∈ keptMask reuse demand hold) (hk' : k' ∈ keptMask reuse demand hold)
    (h : hold k = some e) (h' : hold k' = some e) : k = k' := by
  obtain ⟨-, e₁, he₁, -, hfirst⟩ := mem_keptMask.mp hk
  obtain ⟨-, e₂, he₂, -, hfirst'⟩ := mem_keptMask.mp hk'
  obtain rfl := Option.some.inj (h.symm.trans he₁)
  obtain rfl := Option.some.inj (h'.symm.trans he₂)
  rcases lt_trichotomy k k' with hlt | heq | hgt
  · exact absurd h (hfirst' k hlt)
  · exact heq
  · exact absurd h' (hfirst k' hgt)

/-- In mode 2 a wanted expert that some slot holds is kept. -/
theorem exists_keptMask (hold_k : hold k = some e) (he : 0 < demand e) :
    ∃ k' ∈ keptMask .act demand hold, hold k' = some e := by
  have hne : (Finset.univ.filter fun k => hold k = some e).Nonempty := ⟨k, by simpa using hold_k⟩
  have hmin := Finset.min'_mem _ hne
  refine ⟨Finset.min' _ hne, mem_keptMask.mpr ⟨rfl, e, by simpa using hmin, he, fun k' hlt h' => ?_⟩,
    by simpa using hmin⟩
  have hle := Finset.min'_le (Finset.univ.filter fun k => hold k = some e) k' (by simpa using h')
  exact absurd hlt (not_lt.mpr hle)

theorem demandLeft_pos : 0 < demandLeft keep hold demand e ↔ 0 < demand e ∧ ∀ k ∈ keep, hold k ≠ some e := by
  unfold demandLeft
  split
  · next h =>
    obtain ⟨k, hk, he⟩ := h
    exact ⟨fun h => absurd h (lt_irrefl 0), fun h => absurd he (h.2 k hk)⟩
  · next h =>
    push Not at h
    exact ⟨fun hpos => ⟨hpos, h⟩, fun hpos => hpos.1⟩

theorem mem_fillOrder : k ∈ fillOrder keep holdScore ↔ k ∉ keep := by
  simp [fillOrder, Argsort.stable.mem_asc]

theorem nodup_fillOrder : (fillOrder keep holdScore).Nodup :=
  Argsort.stable.nodup_asc ((List.nodup_finRange S).filter _)

theorem length_fillOrder : (fillOrder keep holdScore).length + keep.card = S := by
  have hset : (fillOrder keep holdScore).toFinset = keepᶜ := by
    ext k
    rw [List.mem_toFinset, mem_fillOrder, Finset.mem_compl]
  rw [← List.toFinset_card_of_nodup nodup_fillOrder, hset, Finset.card_compl, Fintype.card_fin]
  have hle : keep.card ≤ S := by simpa using keep.card_le_univ
  omega

/-- A slot that is not kept takes the expert whose place in the remaining demand is its own in the eviction order. -/
theorem fill_eq_some_iff : fill skip keep holdScore left k = some e ↔
    k ∉ keep ∧ (Argsort.stable : Argsort (Fin E) ℕ).rank left e = (fillOrder keep holdScore).idxOf k ∧
      0 < left e ∧ ¬ skip := by
  unfold fill
  by_cases hk : k ∈ keep
  · simp [hk]
  · rw [if_neg hk, Option.filter_eq_some_iff, Argsort.getElem?_order_eq_some_iff, decide_eq_true_iff]
    exact ⟨fun h => ⟨hk, h⟩, fun h => h.2⟩

/-- No expert is fetched twice. -/
theorem fill_inj (h : fill skip keep holdScore left k = some e) (h' : fill skip keep holdScore left k' = some e) :
    k = k' := by
  obtain ⟨hk, hrank, -⟩ := fill_eq_some_iff.mp h
  obtain ⟨-, hrank', -⟩ := fill_eq_some_iff.mp h'
  exact (List.idxOf_inj (mem_fillOrder.mpr hk)).mp (hrank.symm.trans hrank')

/-- Without a skip each of the strongest remaining demands, one for each free slot, has a slot. -/
theorem exists_fill (hskip : ¬ skip) (he : 0 < left e)
    (hrank : (Argsort.stable : Argsort (Fin E) ℕ).rank left e < (fillOrder keep holdScore).length) :
    ∃ k, fill skip keep holdScore left k = some e := by
  refine ⟨(fillOrder keep holdScore)[(Argsort.stable : Argsort (Fin E) ℕ).rank left e], fill_eq_some_iff.mpr ?_⟩
  exact ⟨mem_fillOrder.mp (List.getElem_mem hrank), (nodup_fillOrder.idxOf_getElem _ hrank).symm, he, hskip⟩

/-- Without a skip and with at least as many experts in demand as free slots, every free slot takes one. -/
theorem fill_isSome (hskip : ¬ skip) (hk : k ∉ keep) (hmany : (fillOrder keep holdScore).length ≤ nWant left) :
    (fill skip keep holdScore left k).isSome := by
  have hidx : (fillOrder keep holdScore).idxOf k < (fillOrder keep holdScore).length :=
    List.idxOf_lt_length_of_mem (mem_fillOrder.mpr hk)
  have hnWant : nWant left ≤ E := (Finset.card_filter_le _ _).trans_eq (Finset.card_fin E)
  obtain ⟨e, he⟩ := (Argsort.stable : Argsort (Fin E) ℕ).exists_rank_eq left (p := (fillOrder keep holdScore).idxOf k)
    (by omega)
  have hpos : 0 < left e := by
    refine ((Argsort.stable : Argsort (Fin E) ℕ).rank_lt_card_iff left 0 e).mp ?_
    rw [he]
    exact hidx.trans_le hmany
  rw [fill_eq_some_iff.mpr ⟨hk, he, hpos, hskip⟩]
  rfl

/-- The experts of a selection are no more than the slots, and as many if every slot has one. -/
theorem Selects.card_le {sel : Fin S → Option (Fin E)} {w : Finset (Fin E)} (h : Selects sel w) :
    w.card ≤ S ∧ ((∀ k, (sel k).isSome) → w.card = S) := by
  have hcard : w.card = (landings sel).length := by
    rw [← h.toFinset_snd, List.toFinset_card_of_nodup h.nodup_snd, List.length_map]
  constructor
  · rw [hcard]
    exact (List.length_filterMap_le _ _).trans_eq List.length_finRange
  · intro hall
    rw [hcard]
    unfold landings
    rw [List.filterMap_length_eq_length.mpr, List.length_finRange]
    intro k _
    simpa using hall k

/-- What a call reports, a slot for each expert. -/
theorem carries_eq_some_iff : carries keep hold (fill skip keep holdScore left) k = some e ↔
    (k ∈ keep ∧ hold k = some e) ∨ fill skip keep holdScore left k = some e := by
  unfold carries
  by_cases hk : k ∈ keep
  · have hnone : fill skip keep holdScore left k = none := if_pos hk
    simp [hk, hnone]
  · simp [hk]

variable (skip holdScore) in
/-- **No expert is reported twice**, kept or fetched. -/
theorem selects_carries (reuse : Reuse) (demand : Fin E → ℕ) (hold : Fin S → Option (Fin E)) :
    ∃ w, Selects (carries (keptMask reuse demand hold) hold (fill skip (keptMask reuse demand hold) holdScore
      (demandLeft (keptMask reuse demand hold) hold demand))) w ∧ ∀ e ∈ w, 0 < demand e := by
  refine ⟨Finset.univ.filter fun e => ∃ k, carries (keptMask reuse demand hold) hold (fill skip
    (keptMask reuse demand hold) holdScore (demandLeft (keptMask reuse demand hold) hold demand)) k = some e,
    ⟨fun e => by simp, fun k k' e h h' => ?_⟩, fun e he => ?_⟩
  · rcases carries_eq_some_iff.mp h with ⟨hk, hh⟩ | hf <;> rcases carries_eq_some_iff.mp h' with ⟨hk', hh'⟩ | hf'
    · exact keptMask_inj hk hk' hh hh'
    · exact absurd hh ((demandLeft_pos.mp (fill_eq_some_iff.mp hf').2.2.1).2 k hk)
    · exact absurd hh' ((demandLeft_pos.mp (fill_eq_some_iff.mp hf).2.2.1).2 k' hk')
    · exact fill_inj hf hf'
  · obtain ⟨k, hk⟩ := (Finset.mem_filter.mp he).2
    rcases carries_eq_some_iff.mp hk with ⟨hk, hh⟩ | hf
    · obtain ⟨-, e', he', hpos, -⟩ := mem_keptMask.mp hk
      obtain rfl := Option.some.inj (hh.symm.trans he')
      exact hpos
    · exact (demandLeft_pos.mp (fill_eq_some_iff.mp hf).2.2.1).1

/-- The keep pass takes one expert out of the demand for each slot it keeps. -/
theorem nWant_demandLeft (reuse : Reuse) (demand : Fin E → ℕ) (hold : Fin S → Option (Fin E)) :
    nWant (demandLeft (keptMask reuse demand hold) hold demand) + (keptMask reuse demand hold).card = nWant demand := by
  set keep := keptMask reuse demand hold with hkeep
  have hkept : ∀ k ∈ keep, ∃ e, hold k = some e ∧ 0 < demand e := fun k hk =>
    let ⟨e, he, hpos, _⟩ := (mem_keptMask.mp hk).2
    ⟨e, he, hpos⟩
  have hcard : keep.card = (Finset.univ.filter fun e => 0 < demand e ∧ ∃ k ∈ keep, hold k = some e).card := by
    refine Finset.card_bij (fun k hk => (hkept k hk).choose) (fun k hk => ?_) (fun k hk k' hk' heq => ?_) fun e he => ?_
    · obtain ⟨he, hpos⟩ := (hkept k hk).choose_spec
      simpa using ⟨hpos, k, hk, he⟩
    · have he := (hkept k hk).choose_spec.1
      rw [heq] at he
      exact keptMask_inj hk hk' he (hkept k' hk').choose_spec.1
    · obtain ⟨-, -, k, hk, he⟩ := Finset.mem_filter.mp he
      exact ⟨k, hk, Option.some.inj ((hkept k hk).choose_spec.1.symm.trans he)⟩
  have hleft : (Finset.univ.filter fun e => 0 < demandLeft keep hold demand e) =
      Finset.univ.filter fun e => 0 < demand e ∧ ¬ ∃ k ∈ keep, hold k = some e := by
    ext e
    simp only [Finset.mem_filter, Finset.mem_univ, true_and, demandLeft_pos, not_exists, not_and]
  unfold nWant
  rw [hcard, hleft, add_comm, ← Finset.filter_filter, ← Finset.filter_filter]
  exact Finset.card_filter_add_card_filter_not _

variable (holdScore) in
/-- **Coverage.** In mode 2 a call that is not skipped reports every wanted expert, or fills every slot. -/
theorem carries_full (hskip : ¬ skip) {w : Finset (Fin E)}
    (hw : Selects (carries (keptMask .act demand hold) hold (fill skip (keptMask .act demand hold) holdScore
      (demandLeft (keptMask .act demand hold) hold demand))) w) :
    (nWant demand ≤ S → ∀ e, 0 < demand e → e ∈ w) ∧ (S ≤ nWant demand → w.card = S) := by
  have hsum := nWant_demandLeft .act demand hold
  have hlen : (fillOrder (keptMask .act demand hold) holdScore).length + (keptMask .act demand hold).card = S :=
    length_fillOrder
  constructor
  · intro hfit e he
    rw [← hw.mem_iff]
    by_cases hheld : ∃ k ∈ keptMask .act demand hold, hold k = some e
    · obtain ⟨k, hk, hh⟩ := hheld
      exact ⟨k, carries_eq_some_iff.mpr (.inl ⟨hk, hh⟩)⟩
    · have hleft : 0 < demandLeft (keptMask .act demand hold) hold demand e :=
        demandLeft_pos.mpr ⟨he, fun k hk hh => hheld ⟨k, hk, hh⟩⟩
      have hrank := ((Argsort.stable : Argsort (Fin E) ℕ).rank_lt_card_iff _ 0 e).mpr hleft
      obtain ⟨k, hk⟩ : ∃ k, fill skip (keptMask .act demand hold) holdScore
          (demandLeft (keptMask .act demand hold) hold demand) k = some e :=
        exists_fill hskip hleft (hrank.trans_le (show nWant _ ≤ _ by omega))
      exact ⟨k, carries_eq_some_iff.mpr (.inr hk)⟩
  · intro hmany
    refine hw.card_le.2 fun k => ?_
    by_cases hk : k ∈ keptMask .act demand hold
    · obtain ⟨-, e, he, -⟩ := mem_keptMask.mp hk
      rw [carries_eq_some_iff.mpr (.inl ⟨hk, he⟩)]
      rfl
    · have hsome : (fill skip (keptMask .act demand hold) holdScore
          (demandLeft (keptMask .act demand hold) hold demand) k).isSome := fill_isSome hskip hk (by omega)
      rw [carries, if_neg hk]
      exact hsome

/-- A skipped call fetches nothing. -/
theorem fill_of_skip (hskip : skip) : fill skip keep holdScore left k = none := by
  rw [Option.eq_none_iff_forall_ne_some]
  intro e he
  exact (fill_eq_some_iff.mp he).2.2.2 hskip

end Call

/-! ## Runs -/

namespace LandingSlots

section Step

variable {sigmoid : α → α} {c : PredCall E α} {s s' : LandingSlots E S} {reuse : Reuse} {e : Fin E} {k : Fin S}

/-- The experts the kernel lists for the slots of `s`. -/
def listed (sigmoid : α → α) (reuse : Reuse) (c : PredCall E α) (s : LandingSlots E S) : Fin S → Option (Fin E) :=
  let keep := keptMask reuse (c.demand sigmoid) s.hold
  fill (c.Skips sigmoid S) keep s.holdScore (demandLeft keep s.hold (c.demand sigmoid))

/-- What a call leaves: the set `w` reported, with a slot for each of its experts. -/
structure Reports (sigmoid : α → α) (reuse : Reuse) (c : PredCall E α) (s s' : LandingSlots E S) (w : Finset (Fin E)) :
    Prop where
  selects : Selects (carries (keptMask reuse (c.demand sigmoid) s.hold) s.hold (s.listed sigmoid reuse c)) w
  wanted : w ⊆ c.wanted sigmoid
  landed : s'.landed = if c.route then w else ∅
  landedCpu : s'.landedCpu = if c.cpuskip then w else ∅
  index : ∀ k e, carries (keptMask reuse (c.demand sigmoid) s.hold) s.hold (s.listed sigmoid reuse c) k = some e →
    s'.index e = c.slotBase + k
  sel : s'.sel = s.listed sigmoid reuse c
  hold : s'.hold = fun k => if reuse = .off then s.hold k else (s'.sel k).or (s.hold k)

theorem mem_wanted : e ∈ c.wanted sigmoid ↔ 0 < c.demand sigmoid e := pfDemand_pos_iff.symm

theorem predFused_reports (h : s.predFused sigmoid reuse c = some s') :
    s'.content = s.content ∧ ∃ w, Reports sigmoid reuse c s s' w := by
  unfold predFused at h
  split at h
  · exact absurd h.symm (Option.some_ne_none s')
  obtain rfl := Option.some.inj h
  obtain ⟨w, hw, hpos⟩ := selects_carries s.holdScore (c.Skips sigmoid S) reuse (c.demand sigmoid) s.hold
  refine ⟨rfl, w, hw, fun e he => mem_wanted.mpr (hpos e he), ?_, ?_, fun k e hk => ?_, rfl, rfl⟩
  · dsimp only
    rw [hw.toFinset_snd]
  · dsimp only
    rw [hw.toFinset_snd]
  · refine updates_of_mem ?_ (List.mem_map.mpr ⟨(k, e), mem_landings.mpr hk, rfl⟩)
    rw [List.map_map]
    exact hw.nodup_snd

theorem Reports.mem_of_landed {w : Finset (Fin E)} (hw : Reports sigmoid reuse c s s' w)
    (he : e ∈ s'.landed ∪ s'.landedCpu) : e ∈ w := by
  rw [hw.landed, hw.landedCpu, Finset.mem_union] at he
  rcases he with he | he <;> split at he
  · exact he
  · exact absurd he (Finset.notMem_empty e)
  · exact he
  · exact absurd he (Finset.notMem_empty e)

/-- The gather writes the listed slots, and nothing else. -/
theorem streamExperts_eq_some {mapped : Finset (Fin E)} (h : s.streamExperts mapped = some s') :
    s' = { s with content := fun k => (s.sel k).or (s.content k) } := by
  unfold streamExperts at h
  split at h
  · exact (Option.some.inj h).symm
  · exact absurd h.symm (Option.some_ne_none s')

/-- A call in mode 2 and its gather: the call reports, and the listed slots are written. -/
theorem predStep_reports (h : predStep sigmoid (some s) c = some s') :
    (∃ w, Reports sigmoid .act c s s' w) ∧ s'.content = fun k => (s'.sel k).or (s.content k) := by
  obtain ⟨s₁, h₁, h₂⟩ := Option.bind_eq_some_iff.mp h
  obtain ⟨hcontent, w, hw⟩ := predFused_reports h₁
  obtain rfl := streamExperts_eq_some h₂
  refine ⟨⟨w, hw.selects, hw.wanted, hw.landed, hw.landedCpu, hw.index, hw.sel, hw.hold⟩, ?_⟩
  rw [hcontent]

/-- In mode 2 an expert is fetched only where no slot holds it. -/
theorem listed_notHeld (h : s.listed sigmoid .act c k = some e) (k' : Fin S) : s.hold k' ≠ some e := by
  intro hheld
  obtain ⟨hpos, hleft⟩ := demandLeft_pos.mp (fill_eq_some_iff.mp h).2.2.1
  obtain ⟨k₁, hk₁, he⟩ := exists_keptMask hheld hpos
  exact hleft k₁ hk₁ he

/-- The record stays accurate through a call in mode 2 and its gather. -/
theorem HoldAccurate.step (hs : s.HoldAccurate) (h : predStep sigmoid (some s) c = some s') : s'.HoldAccurate := by
  obtain ⟨⟨w, hw⟩, hcontent⟩ := predStep_reports h
  have hhold : s'.hold = fun k => (s'.sel k).or (s.hold k) := hw.hold
  constructor
  · intro k k' e hk hk'
    rw [hhold, hw.sel] at hk hk'
    rcases Option.or_eq_some_iff.mp hk with hk | ⟨-, hk⟩ <;> rcases Option.or_eq_some_iff.mp hk' with hk' | ⟨-, hk'⟩
    · exact fill_inj hk hk'
    · exact absurd hk' (listed_notHeld hk k')
    · exact absurd hk (listed_notHeld hk' k)
    · exact hs.distinct k k' e hk hk'
  · intro k e hk
    rw [hhold] at hk
    rw [hcontent]
    rcases Option.or_eq_some_iff.mp hk with hk | ⟨hnone, hk⟩
    · exact Option.or_eq_some_iff.mpr (.inl hk)
    · exact Option.or_eq_some_iff.mpr (.inr ⟨hnone, hs.content k e hk⟩)

/-- An expert reported by a call is where the index says, after the gather. -/
theorem HoldAccurate.honest (hs : s.HoldAccurate) (h : predStep sigmoid (some s) c = some s') :
    ∀ e ∈ s'.landed ∪ s'.landedCpu, ∃ k : Fin S, s'.index e = c.slotBase + k ∧ s'.content k = some e := by
  obtain ⟨⟨w, hw⟩, hcontent⟩ := predStep_reports h
  intro e he
  obtain ⟨k, hk⟩ := (hw.selects.mem_iff e).mpr (hw.mem_of_landed he)
  refine ⟨k, hw.index k e hk, ?_⟩
  rw [hcontent]
  rcases carries_eq_some_iff.mp hk with ⟨hkeep, hheld⟩ | hfetch
  · have hnone : s'.sel k = none := by
      rw [hw.sel]
      exact if_pos hkeep
    exact Option.or_eq_some_iff.mpr (.inr ⟨hnone, hs.content k e hheld⟩)
  · exact Option.or_eq_some_iff.mpr (.inl (by rw [hw.sel]; exact hfetch))

/-- What mode 1 reports: nothing of a skipped layer, and one wanted expert for each slot at most. -/
theorem card_measure_le {w : Finset (Fin E)} (hw : Reports sigmoid .measure c s s' w) :
    w.card ≤ S ∧ (c.Skips sigmoid S → w = ∅) := by
  refine ⟨hw.selects.card_le.1, fun hskip => Finset.eq_empty_of_forall_notMem fun e he => ?_⟩
  obtain ⟨k, hk⟩ := (hw.selects.mem_iff e).mpr he
  rcases carries_eq_some_iff.mp hk with ⟨hkeep, -⟩ | hfetch
  · rw [keptMask_of_ne_act (by decide)] at hkeep
    exact absurd hkeep (Finset.notMem_empty k)
  · have hnone : s.listed sigmoid .measure c k = none := fill_of_skip hskip
    exact absurd (hfetch.symm.trans hnone) (Option.some_ne_none e)

/-- Mode 2 reports no fewer experts than mode 1 does of the same scores. -/
theorem card_measure_le_act {s₀ s₁ : LandingSlots E S} {w w₁ : Finset (Fin E)} (hw : Reports sigmoid .act c s s' w)
    (hw₁ : Reports sigmoid .measure c s₀ s₁ w₁) : w₁.card ≤ w.card := by
  obtain ⟨hle, hskipped⟩ := card_measure_le hw₁
  by_cases hskip : c.Skips sigmoid S
  · rw [hskipped hskip]
    exact Nat.zero_le _
  obtain ⟨hfit, hmany⟩ := carries_full s.holdScore hskip hw.selects
  rcases le_total (nWant (c.demand sigmoid)) S with h | h
  · exact Finset.card_le_card fun e he => hfit h e (mem_wanted.mp (hw₁.wanted he))
  · rw [hmany h]
    exact hle

/-- **One call** in mode 2 and its gather, on an accurate record. -/
theorem HoldAccurate.covers (hs : s.HoldAccurate) (h : predStep sigmoid (some s) c = some s') :
    Covers sigmoid c s s' := by
  obtain ⟨⟨w, hw⟩, -⟩ := predStep_reports h
  have hfetched : s'.fetchedSlots ⊆ (s.keptSlots sigmoid c)ᶜ := by
    intro k hk
    rw [Finset.mem_compl]
    intro hkeep
    have hsel : s'.sel k = none := by
      rw [hw.sel]
      exact if_pos hkeep
    simp [fetchedSlots, hsel] at hk
  have hsub : ∀ {b : Bool}, (if b then w else ∅) ⊆ c.wanted sigmoid := by
    intro b
    split
    · exact hw.wanted
    · exact Finset.empty_subset _
  have hdisj : Disjoint (s.keptSlots sigmoid c) s'.fetchedSlots := by
    rw [Finset.disjoint_right]
    intro k hk
    exact Finset.mem_compl.mp (hfetched hk)
  refine ⟨hs.honest h, hdisj, ?_, fun k hk k' hsel => ?_, ?_, fun hfit => ?_, fun s₀ s₁ h₁ => ?_⟩
  · rw [← Finset.card_union_of_disjoint hdisj]
    exact (Finset.card_le_univ _).trans_eq (Fintype.card_fin S)
  · obtain ⟨-, e, he, -⟩ := mem_keptMask.mp hk
    rw [hw.sel, he] at hsel
    exact listed_notHeld hsel k he
  · rw [hw.landed, hw.landedCpu]
    exact ⟨hsub, hsub⟩
  · have hnWant : nWant (c.demand sigmoid) ≤ S := nWant_pfDemand.trans_le hfit
    have hskip : ¬ c.Skips sigmoid S := fun hskip => absurd hnWant (not_le.mpr hskip.2)
    have hall : w = c.wanted sigmoid := hw.wanted.antisymm fun e he =>
      (carries_full s.holdScore hskip hw.selects).1 hnWant e (mem_wanted.mp he)
    rw [hw.landed, hw.landedCpu, ← hall]
    exact ⟨fun hroute => if_pos hroute, fun hcpu => if_pos hcpu⟩
  · obtain ⟨-, w₁, hw₁⟩ := predFused_reports h₁
    have hle : w₁.card ≤ w.card := card_measure_le_act hw hw₁
    rw [hw.landed, hw.landedCpu, hw₁.landed, hw₁.landedCpu]
    constructor
    · split
      · exact hle
      · exact le_rfl
    · split
      · exact hle
      · exact le_rfl

/-! ### Modes 0 and 1 -/

/-- What a layer has published is what the kernel has. -/
structure Agrees (l : Layer E S) (s : LandingSlots E S) : Prop where
  sel : l.pfSel = s.sel
  landed : l.pfLanded = s.landed
  landedCpu : l.pfLandedCpu = s.landedCpu
  index : l.pfIndex = s.index
  holdScore : l.pfHoldScore = s.holdScore

/-- The call a layer makes of the kernel. -/
structure CallOf (sigmoid : α → α) (fl : PrefetchFlags) (l : Layer E S) (ids : List (Fin E)) (c : PredCall E α) :
    Prop where
  ids : c.predictedIds sigmoid = ids
  resident : c.resident = l.method.gpuExpertsMaskCuda
  slotBase : c.slotBase = l.method.numGpuExperts
  selective : c.selective = fl.selective
  route : c.route = fl.routes
  cpuskip : c.cpuskip = fl.cpuskip
  topk : c.topk ≤ 64

/-- Without keeping, the fill pass is the pick by demand. -/
theorem listed_of_ne_act {fl : PrefetchFlags} (hreuse : reuse ≠ .act) (hselective : c.selective = fl.selective) :
    s.listed sigmoid reuse c = fun k => pick fl S (Argsort.stable.order (c.demand sigmoid)) (c.demand sigmoid)
      ((evictionOrder s.holdScore).idxOf k) := by
  have hleft : demandLeft ∅ s.hold (c.demand sigmoid) = c.demand sigmoid := by
    funext e
    simp [demandLeft]
  have horder : fillOrder ∅ s.holdScore = evictionOrder s.holdScore := by simp [fillOrder, evictionOrder]
  funext k
  ext e
  unfold listed
  rw [keptMask_of_ne_act hreuse, fill_eq_some_iff, hleft, horder, PredCall.Skips, hselective]
  unfold PredCall.demand
  rw [pick_eq_some_iff, ← nWant_pfDemand, pfDemand_pos_iff]
  simp

/-- Without keeping, a call reports what it lists. -/
theorem carries_of_ne_act (hreuse : reuse ≠ .act) : carries (keptMask reuse (c.demand sigmoid) s.hold) s.hold
    (s.listed sigmoid reuse c) = s.listed sigmoid reuse c := by
  funext k
  rw [carries, keptMask_of_ne_act hreuse, if_neg (Finset.notMem_empty k)]

/-- The kernel lists what the layer's fused prediction picks. -/
theorem listed_eq_pick {fl : PrefetchFlags} {l : Layer E S} {ids : List (Fin E)} (hreuse : reuse ≠ .act)
    (hc : CallOf sigmoid fl l ids c) (hs : l.pfHoldScore = s.holdScore) : s.listed sigmoid reuse c = fun k =>
      pick fl S (Argsort.stable.order (pfDemand l.method.gpuExpertsMaskCuda ids))
        (pfDemand l.method.gpuExpertsMaskCuda ids) ((evictionOrder l.pfHoldScore).idxOf k) := by
  have hdemand : c.demand sigmoid = pfDemand l.method.gpuExpertsMaskCuda ids := by
    unfold PredCall.demand
    rw [hc.ids, hc.resident]
  rw [listed_of_ne_act hreuse hc.selective, hdemand, hs]

/-- **Modes 0 and 1** of the kernel are the fused prediction of the layer. -/
theorem pfIssueFused_agrees {fl : PrefetchFlags} {l l' : Layer E S} {ids : List (Fin E)} (hS : 0 < S)
    (hselect : fl.select = true) (hgather : fl.gather = true) (hc : CallOf sigmoid fl l ids c) (hs : Agrees l s)
    (h : l.pfIssueFused fl true ids c.logits.length = some l') :
    ∃ s', s.predFused sigmoid (if fl.reuse then .measure else .off) c = some s' ∧ Agrees l' s' := by
  unfold Layer.pfIssueFused at h
  rw [if_neg (not_not.mpr ⟨hS, rfl⟩), if_neg (not_not.mpr hselect)] at h
  split at h
  · exact absurd h.symm (Option.some_ne_none l')
  next haccepted =>
  obtain ⟨reuse, hmode⟩ : ∃ r, r = if fl.reuse then Reuse.measure else Reuse.off := ⟨_, rfl⟩
  have hreuse : reuse ≠ .act := by
    rw [hmode]
    split <;> decide
  have hoff : reuse = .off ↔ ¬ fl.reuse = true := by
    rw [hmode]
    split <;> simp [*]
  have hnot : ¬ c.Rejected S := by
    rintro (hE | hslots | htokens | htopk)
    · exact haccepted (.inl hE)
    · exact haccepted (.inr (.inl hslots))
    · exact haccepted (.inr (.inr htokens))
    · exact absurd hc.topk (not_le.mpr htopk)
  have hlisted := listed_eq_pick hreuse hc hs.holdScore
  have hcarries : carries _ s.hold (s.listed sigmoid reuse c) = _ := carries_of_ne_act hreuse
  dsimp only at h
  obtain rfl := Option.some.inj h
  rw [← hmode, predFused, if_neg hnot]
  refine ⟨_, rfl, hlisted.symm, ?_, ?_, ?_, ?_⟩
  · show (if fl.routes then _ else ∅) = if c.route then ((landings (carries _ s.hold (s.listed sigmoid reuse c))).map
      Prod.snd).toFinset else ∅
    rw [hcarries, hc.route, hlisted]
  · show (if fl.cpuskip then _ else ∅) = if c.cpuskip then ((landings (carries _ s.hold
      (s.listed sigmoid reuse c))).map Prod.snd).toFinset else ∅
    rw [hcarries, hc.cpuskip, hlisted]
  · show updates l.pfIndex _ = updates s.index ((landings (carries _ s.hold (s.listed sigmoid reuse c))).map
      fun p => (p.2, (c.slotBase + p.1 : ℤ)))
    rw [hcarries, hc.slotBase, hlisted, hs.index]
  · funext k
    show (if ¬ fl.reuse = true then l.pfHoldScore k else if (pick _ _ _ _ _).isSome then 2 else l.pfHoldScore k - 1) =
      if reuse = .off then s.holdScore k else if k ∈ keptMask reuse _ s.hold then _ else
        if (s.listed sigmoid reuse c k).isSome then 2 else s.holdScore k - 1
    rw [keptMask_of_ne_act hreuse, if_neg (Finset.notMem_empty k), hlisted, hs.holdScore]
    simp only [hoff]

/-- The accurate record, of a process that has not ended. -/
def HoldAccurateState : Option (LandingSlots E S) → Prop
  | some s => s.HoldAccurate
  | none => True

/-- What a call leaves, of a process that does not end. -/
def CoversState (sigmoid : α → α) (s : Option (LandingSlots E S)) (c : PredCall E α) : Prop :=
  ∀ s₀ s', s = some s₀ → predStep sigmoid s c = some s' → Covers sigmoid c s₀ s'

theorem boot_holdAccurate : HoldAccurateState (some (boot E S)) :=
  ⟨fun _ _ _ h => absurd h.symm (Option.some_ne_none _), fun _ _ h => absurd h.symm (Option.some_ne_none _)⟩

theorem predStep_holdAccurate (s : Option (LandingSlots E S)) (c : PredCall E α) (hs : HoldAccurateState s) :
    HoldAccurateState (predStep sigmoid s c) := by
  cases h : predStep sigmoid s c with
  | none => trivial
  | some s' =>
    cases s with
    | none => exact absurd h (by simp [predStep])
    | some s => exact HoldAccurate.step hs h

end Step

/-- **Slot reuse is sound.** From boot and through every sequence of calls in mode 2, each with its own scores,
residency, switches and pointer table and each followed by the gather of the slots it lists: `hold` names distinct
experts that their slots physically hold, and every call reports what `Covers` says, no less than mode 1 would. -/
theorem predFused_run (sigmoid : α → α) (calls : List (PredCall E α)) :
    StatesHold (predStep sigmoid) HoldAccurateState (some (boot E S)) calls ∧
      StepsMeet (predStep sigmoid) (CoversState sigmoid) (some (boot E S)) calls := by
  refine ⟨StatesHold.of_invariant predStep_holdAccurate boot_holdAccurate calls, ?_⟩
  refine StepsMeet.of_invariant (A := fun _ => True) (I := HoldAccurateState) (fun s c _ => predStep_holdAccurate s c)
    (fun s c _ hs => ?_) boot_holdAccurate calls fun _ _ => trivial
  rintro s₀ s' rfl h
  exact HoldAccurate.covers hs h

end LandingSlots

end ExpertServe
