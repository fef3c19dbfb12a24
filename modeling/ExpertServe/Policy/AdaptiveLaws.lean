import ExpertServe.Lib.Run
import ExpertServe.Policy.AdaptiveSelect
import Mathlib.Data.Fin.VecNotation
import Mathlib.Data.Fintype.Powerset
import Mathlib.Tactic.NormNum

/-!
# What the adaptive policy does to a resident set

The challengers come hottest first and the incumbents weakest first, so what a pair has to offer only falls along
the two lists, and stopping at the first pair that fails gives away no later one.

* `pairRule_mono`: a hotter challenger against a weaker incumbent passes wherever the pair behind it does;
* `ktAdaptiveSelect_eq_exchange`: the selection swaps in all the pairs of the budget that pass;
* `ktAdaptiveRounds_settle`: under the fixed margin, selecting on the same counts again and again comes to rest;
* `ktAdaptiveSelect_laws`: the three together.
-/

namespace ExpertServe

open Lib

variable {E : ℕ} {α : Type*} [Field α] [LinearOrder α]

/-- The minimal gain is at least one, as a share of the demand or as the counts it comes to. -/
def GainAtLeastOne (env : Env α) (counts : Fin E → α) : Prop :=
  1 ≤ env.ktAdaptiveMinGain ∨ 1 ≤ env.ktAdaptiveMinGain * ∑ e, counts e

/-- The rule a selection puts its pairs to. -/
def adaptiveRule (env : Env α) (ctl : Ctl α) (counts : Fin E → α) (resMask : Finset (Fin E)) : Fin E → Fin E → Bool :=
  pairRule counts (ktAdaptiveMarginCtl env ctl counts resMask).1 (env.ktAdaptiveMinGain * ∑ e, counts e)

/-- The pairs a selection may look at: the hottest challengers with the weakest incumbents, as far as the budget goes. -/
def adaptivePairs (env : Env α) (srt : Argsort (Fin E) α) (counts : Fin E → α) (resMask : Finset (Fin E)) :
    List (Fin E × Fin E) :=
  ((srt.desc counts (whereTrue resMaskᶜ)).zip (srt.asc counts (whereTrue resMask))).take env.ktAdaptiveMaxSwap.toNat

/-- The pairs a selection takes: all of these that pass, if the residents are as many as they should be and there is
enough demand to go by. -/
def adaptiveTaken (env : Env α) (srt : Argsort (Fin E) α) (ctl : Ctl α) (counts : Fin E → α)
    (resMask : Finset (Fin E)) (numGpuExperts : ℕ) : List (Fin E × Fin E) :=
  if resMask.card = numGpuExperts ∧ env.ktAdaptiveMinEvents ≤ ∑ e, counts e then
    (adaptivePairs env srt counts resMask).filter fun p => adaptiveRule env ctl counts resMask p.1 p.2
  else []

/-- One selection after the other on the same counts, the ties of each broken in its own way. -/
def ktAdaptiveRounds (env : Env α) (counts : Fin E → α) (numGpuExperts : ℕ) (srts : ℕ → Argsort (Fin E) α)
    (start : Finset (Fin E) × Ctl α) : ℕ → Finset (Fin E) × Ctl α
  | 0 => start
  | n + 1 =>
    let s := ktAdaptiveRounds env counts numGpuExperts srts start n
    let (selected, ctl) := ktAdaptiveSelect env (srts n) s.2 counts s.1 numGpuExperts
    (selected.toFinset, ctl)

/-! ## The rule along the two lists -/

section Rule

variable [IsStrictOrderedRing α] {env : Env α} {counts : Fin E → α} {margin : α} {c r c' r' : Fin E}

/-- Where a pair passes, a challenger at least as hot passes against an incumbent at most as warm, whatever the
margin: a margin below zero lets everything through that gains enough. -/
theorem pairRule_mono (h0 : ∀ e, 0 ≤ counts e) (hgain : GainAtLeastOne env counts) (hc : counts c' ≤ counts c)
    (hr : counts r ≤ counts r')
    (h : pairRule counts margin (env.ktAdaptiveMinGain * ∑ e, counts e) c' r' = true) :
    pairRule counts margin (env.ktAdaptiveMinGain * ∑ e, counts e) c r = true := by
  obtain ⟨hratio, hmin⟩ := of_decide_eq_true h
  refine decide_eq_true ⟨?_, hmin.trans (sub_le_sub hc hr)⟩
  by_cases hm : 0 ≤ margin
  · have hle : margin * counts r ≤ margin * counts r' := mul_le_mul_of_nonneg_left hr hm
    linarith
  · have hneg : margin * counts r ≤ 0 := mul_nonpos_of_nonpos_of_nonneg (not_le.mp hm).le (h0 r)
    rcases hgain with hshare | hcount
    · -- the gain is the whole demand, so the incumbents have none of it
      have hall : counts c' ≤ ∑ e, counts e := Finset.single_le_sum (fun e _ => h0 e) (Finset.mem_univ c')
      have htotal : 0 ≤ ∑ e, counts e := Finset.sum_nonneg fun e _ => h0 e
      have hwhole : 1 * ∑ e, counts e ≤ env.ktAdaptiveMinGain * ∑ e, counts e :=
        mul_le_mul_of_nonneg_right hshare htotal
      have hzero' : counts r' = 0 := le_antisymm (by linarith) (h0 r')
      have hzero : counts r = 0 := le_antisymm (hr.trans hzero'.le) (h0 r)
      rw [hzero', mul_zero] at hratio
      rw [hzero, mul_zero]
      exact hratio.trans_le hc
    · have hsmall : (eMinus 9 : α) < 1 := by
        unfold eMinus
        norm_num
      have hlarge : 1 ≤ counts c := by linarith [h0 r']
      linarith

/-- A pair that passes gains mass. -/
theorem lt_of_adaptiveRule {ctl : Ctl α} {res : Finset (Fin E)} (h0 : ∀ e, 0 ≤ counts e)
    (hgain : GainAtLeastOne env counts) (h : adaptiveRule env ctl counts res c r = true) : counts r < counts c := by
  have htotal : 0 ≤ ∑ e, counts e := Finset.sum_nonneg fun e _ => h0 e
  rcases htotal.eq_or_lt with hzero | hpos
  · rw [adaptiveRule, pairRule_of_total_zero h0 hzero.symm] at h
    exact absurd h Bool.false_ne_true
  · refine lt_of_pairRule (Or.inr ?_) (h0 r) h
    rcases hgain with hshare | hcount
    · exact mul_pos (one_pos.trans_le hshare) hpos
    · exact one_pos.trans_le hcount

/-- **The early stop is exact**: where a pair fails, no challenger at or behind its own passes against an incumbent
at or behind its own. -/
theorem adaptiveRule_stop (srt : Argsort (Fin E) α) (ctl : Ctl α) (res : Finset (Fin E)) (h0 : ∀ e, 0 ≤ counts e)
    (hgain : GainAtLeastOne env counts) {i a b : ℕ} (ha : i ≤ a) (hb : i ≤ b)
    (hc : (srt.desc counts (whereTrue resᶜ))[i]? = some c) (hr : (srt.asc counts (whereTrue res))[i]? = some r)
    (hc' : (srt.desc counts (whereTrue resᶜ))[a]? = some c') (hr' : (srt.asc counts (whereTrue res))[b]? = some r')
    (hfail : adaptiveRule env ctl counts res c r = false) : adaptiveRule env ctl counts res c' r' = false := by
  obtain ⟨hi, rfl⟩ := List.getElem?_eq_some_iff.mp hc
  obtain ⟨hi', rfl⟩ := List.getElem?_eq_some_iff.mp hr
  obtain ⟨hlen, rfl⟩ := List.getElem?_eq_some_iff.mp hc'
  obtain ⟨hlen', rfl⟩ := List.getElem?_eq_some_iff.mp hr'
  rw [Bool.eq_false_iff] at hfail ⊢
  refine fun hpass => hfail (pairRule_mono h0 hgain ?_ ?_ hpass)
  · rcases ha.eq_or_lt with rfl | hlt
    · exact le_rfl
    · exact List.pairwise_iff_getElem.mp (srt.desc_sorted counts _) i a hi hlen hlt
  · rcases hb.eq_or_lt with rfl | hlt
    · exact le_rfl
    · exact List.pairwise_iff_getElem.mp (srt.asc_sorted counts _) i b hi' hlen' hlt

end Rule

/-! ## One selection -/

section Selection

/-- The pairs a selection may look at bring challengers in for incumbents. -/
theorem swaps_adaptivePairs (env : Env α) (srt : Argsort (Fin E) α) (counts : Fin E → α) (res : Finset (Fin E)) :
    Swaps res (adaptivePairs env srt counts res) := by
  refine (Swaps.zip ?_ ?_ (fun e he => ?_) fun e he => ?_).of_pre (List.take_prefix _ _)
  · exact srt.nodup_desc (whereTrue_nodup _)
  · exact srt.nodup_asc (whereTrue_nodup _)
  · exact Finset.mem_compl.mp (mem_whereTrue.mp (srt.mem_desc.mp he))
  · exact mem_whereTrue.mp (srt.mem_asc.mp he)

theorem length_adaptivePairs_le (env : Env α) (srt : Argsort (Fin E) α) (counts : Fin E → α) (res : Finset (Fin E)) :
    (adaptivePairs env srt counts res).length ≤ env.ktAdaptiveMaxSwap.toNat :=
  List.length_take_le _ _

theorem adaptiveTaken_of_off {env : Env α} {srt : Argsort (Fin E) α} {ctl : Ctl α} {counts : Fin E → α}
    {res : Finset (Fin E)} {num : ℕ} (h : ¬ (res.card = num ∧ env.ktAdaptiveMinEvents ≤ ∑ e, counts e)) :
    adaptiveTaken env srt ctl counts res num = [] := if_neg h

theorem swaps_adaptiveTaken (env : Env α) (srt : Argsort (Fin E) α) (ctl : Ctl α) (counts : Fin E → α)
    (res : Finset (Fin E)) (num : ℕ) : Swaps res (adaptiveTaken env srt ctl counts res num) := by
  unfold adaptiveTaken
  split
  · exact (swaps_adaptivePairs env srt counts res).of_sublist List.filter_sublist
  · exact Swaps.nil

theorem length_adaptiveTaken_le (env : Env α) (srt : Argsort (Fin E) α) (ctl : Ctl α) (counts : Fin E → α)
    (res : Finset (Fin E)) (num : ℕ) :
    (adaptiveTaken env srt ctl counts res num).length ≤ env.ktAdaptiveMaxSwap.toNat := by
  unfold adaptiveTaken
  split
  · exact List.filter_sublist.length_le.trans (length_adaptivePairs_le env srt counts res)
  · exact Nat.zero_le _

theorem rule_of_mem_adaptiveTaken {env : Env α} {srt : Argsort (Fin E) α} {ctl : Ctl α} {counts : Fin E → α}
    {res : Finset (Fin E)} {num : ℕ} {p : Fin E × Fin E} (h : p ∈ adaptiveTaken env srt ctl counts res num) :
    adaptiveRule env ctl counts res p.1 p.2 = true := by
  unfold adaptiveTaken at h
  split at h
  · exact (List.mem_filter.mp h).2
  · exact absurd h List.not_mem_nil

variable [IsStrictOrderedRing α] {env : Env α} {counts : Fin E → α}

/-- **One selection swaps in every pair of its budget that passes.** -/
theorem ktAdaptiveSelect_eq_exchange (h0 : ∀ e, 0 ≤ counts e) (hgain : GainAtLeastOne env counts)
    (srt : Argsort (Fin E) α) (ctl : Ctl α) (res : Finset (Fin E)) (num : ℕ) :
    (ktAdaptiveSelect env srt ctl counts res num).1 =
      whereTrue (exchange res (adaptiveTaken env srt ctl counts res num)) := by
  have hswaps := swaps_adaptiveTaken env srt ctl counts res num
  unfold ktAdaptiveSelect
  dsimp only
  rw [length_whereTrue]
  by_cases hnum : res.card = num
  case neg => rw [if_pos hnum, adaptiveTaken_of_off fun h => hnum h.1, exchange_nil]
  rw [if_neg (not_not.mpr hnum)]
  by_cases hev : ∑ e, counts e < env.ktAdaptiveMinEvents
  case pos => rw [if_pos hev, adaptiveTaken_of_off fun h => absurd hev (not_lt.mpr h.2), exchange_nil]
  rw [if_neg hev]
  -- the early stop has taken all the pairs that pass
  have htaken : adaptiveTaken env srt ctl counts res num =
      accepted (adaptiveRule env ctl counts res) env.ktAdaptiveMaxSwap.toNat (srt.desc counts (whereTrue resᶜ))
        (srt.asc counts (whereTrue res)) := by
    rw [adaptiveTaken, if_pos ⟨hnum, not_lt.mp hev⟩, adaptivePairs, accepted_eq_filter]
    refine (pairwise_zip (srt.desc_sorted counts _) (srt.asc_sorted counts _)).imp fun {p q} h hpass => ?_
    exact pairRule_mono h0 hgain h.1 h.2 hpass
  by_cases hnone : (whereTrue resᶜ).length = 0 ∨ env.ktAdaptiveMaxSwap ≤ 0
  · have hempty : adaptiveTaken env srt ctl counts res num = [] := by
      rw [htaken]
      rcases hnone with hcand | hbudget
      · rw [List.length_eq_zero_iff.mp hcand, srt.desc_nil, accepted_nil_left]
      · have hlen := length_adaptiveTaken_le env srt ctl counts res num
        rw [htaken] at hlen
        exact List.eq_nil_of_length_eq_zero (by omega)
    rw [if_pos hnone, hempty, exchange_nil]
  rw [if_neg hnone]
  unfold adaptiveRule at htaken
  rw [← htaken, hswaps.exchange_eq]
  by_cases hempty : adaptiveTaken env srt ctl counts res num = []
  · rw [if_pos hempty, hempty]
    simp [ins, outs]
  · rw [if_neg hempty]

/-- Each pair taken adds at least the minimal gain to the mass of the residents. -/
theorem adaptiveTaken_climbs (srt : Argsort (Fin E) α) (ctl : Ctl α) (res : Finset (Fin E)) (num : ℕ) {n : ℕ}
    (hn : n < (adaptiveTaken env srt ctl counts res num).length) :
    ∑ e ∈ exchange res ((adaptiveTaken env srt ctl counts res num).take n), counts e +
        env.ktAdaptiveMinGain * ∑ e, counts e ≤
      ∑ e ∈ exchange res ((adaptiveTaken env srt ctl counts res num).take (n + 1)), counts e := by
  rw [(swaps_adaptiveTaken env srt ctl counts res num).sum_exchange_take_succ counts hn]
  obtain ⟨-, hmin⟩ := of_decide_eq_true (rule_of_mem_adaptiveTaken (List.getElem_mem hn))
  exact add_le_add_right hmin _

/-- A selection that moves the residents gains mass. -/
theorem sum_lt_sum_ktAdaptiveSelect (h0 : ∀ e, 0 ≤ counts e) (hgain : GainAtLeastOne env counts)
    (srt : Argsort (Fin E) α) (ctl : Ctl α) (res : Finset (Fin E)) (num : ℕ)
    (hmove : (ktAdaptiveSelect env srt ctl counts res num).1.toFinset ≠ res) :
    ∑ e ∈ res, counts e < ∑ e ∈ (ktAdaptiveSelect env srt ctl counts res num).1.toFinset, counts e := by
  rw [ktAdaptiveSelect_eq_exchange h0 hgain, whereTrue_toFinset] at hmove ⊢
  refine (swaps_adaptiveTaken env srt ctl counts res num).sum_lt_sum_exchange (fun hnil => hmove ?_) fun p hp => ?_
  · rw [hnil, exchange_nil]
  · exact lt_of_adaptiveRule h0 hgain (rule_of_mem_adaptiveTaken hp)

end Selection

/-! ## Selecting again and again -/

section Rounds

variable {env : Env α} {counts : Fin E → α}

/-- The fixed margin leaves the controller alone. -/
theorem ktAdaptiveSelect_snd_of_fixed (h : env.ktAdaptiveAuto = false) (srt : Argsort (Fin E) α) (ctl : Ctl α)
    (res : Finset (Fin E)) (num : ℕ) : (ktAdaptiveSelect env srt ctl counts res num).2 = ctl := by
  have hctl : (ktAdaptiveMarginCtl env ctl counts res).2 = ctl := by simp [ktAdaptiveMarginCtl, h]
  unfold ktAdaptiveSelect
  dsimp only
  split_ifs
  all_goals first | rfl | exact hctl

/-- Whether a selection moves the residents does not depend on how ties are broken. -/
theorem ktAdaptiveSelect_eq_self_iff (srt : Argsort (Fin E) α) (ctl : Ctl α) (res : Finset (Fin E)) (num : ℕ) :
    (ktAdaptiveSelect env srt ctl counts res num).1.toFinset = res ↔ (res.card = num → ¬ SwapPays env ctl counts res) := by
  by_cases hnum : res.card = num
  · subst hnum
    obtain ⟨sel, hsel, -, hne⟩ := ktAdaptiveSelect_spec env srt ctl counts res
    rw [hsel, whereTrue_toFinset, ← not_iff_not]
    simpa using hne
  · have hoff : (ktAdaptiveSelect env srt ctl counts res num).1 = whereTrue res := by
      unfold ktAdaptiveSelect
      dsimp only
      rw [length_whereTrue, if_pos hnum]
    rw [hoff, whereTrue_toFinset]
    exact ⟨fun _ h => absurd h hnum, fun _ => rfl⟩

theorem ktAdaptiveRounds_snd (h : env.ktAdaptiveAuto = false) (num : ℕ) (srts : ℕ → Argsort (Fin E) α)
    (start : Finset (Fin E) × Ctl α) (n : ℕ) : (ktAdaptiveRounds env counts num srts start n).2 = start.2 := by
  induction n with
  | zero => rfl
  | succ n ih => exact (ktAdaptiveSelect_snd_of_fixed h (srts n) _ _ num).trans ih

/-- **Selecting on the same counts comes to rest** under the fixed margin, however each selection breaks its ties. -/
theorem ktAdaptiveRounds_settle [IsStrictOrderedRing α] (h0 : ∀ e, 0 ≤ counts e) (hgain : GainAtLeastOne env counts)
    (hauto : env.ktAdaptiveAuto = false) (num : ℕ) (srts : ℕ → Argsort (Fin E) α) (start : Finset (Fin E) × Ctl α) :
    ∃ n, ∀ m, n ≤ m →
      ktAdaptiveRounds env counts num srts start m = ktAdaptiveRounds env counts num srts start n := by
  obtain ⟨n, hn⟩ := exists_seq_fixed (fun n => (ktAdaptiveRounds env counts num srts start n).1)
    (fun res => ∑ e ∈ res, counts e) fun n hmove =>
      sum_lt_sum_ktAdaptiveSelect h0 hgain (srts n) (ktAdaptiveRounds env counts num srts start n).2 _ num hmove
  refine ⟨n, fun m hm => ?_⟩
  induction m, hm using Nat.le_induction with
  | base => rfl
  | succ m _ ih =>
    have hrest := (ktAdaptiveSelect_eq_self_iff (srts n) _ _ num).mp hn
    rw [← ih] at hrest
    refine Prod.ext ?_ ?_
    · exact ((ktAdaptiveSelect_eq_self_iff (srts m) _ _ num).mpr hrest).trans (congrArg Prod.fst ih)
    · rw [ktAdaptiveRounds_snd hauto, ktAdaptiveRounds_snd hauto]

end Rounds

/-! ## The laws of the policy -/

/-- What the policy does to any resident set, with any controller and any way to break ties. -/
structure AdaptiveLaws (env : Env α) (counts : Fin E → α) (num : ℕ) : Prop where
  /-- Challengers from outside come in for incumbents, one for one. -/
  exchanges : ∀ (srt : Argsort (Fin E) α) (ctl : Ctl α) (res : Finset (Fin E)),
    Swaps res (adaptiveTaken env srt ctl counts res num) ∧
      (ktAdaptiveSelect env srt ctl counts res num).1 =
        whereTrue (exchange res (adaptiveTaken env srt ctl counts res num))
  /-- The set keeps its size. -/
  keepsSize : ∀ (srt : Argsort (Fin E) α) (ctl : Ctl α) (res : Finset (Fin E)),
    (ktAdaptiveSelect env srt ctl counts res num).1.toFinset.card = res.card
  /-- There are at most as many swaps as the setting allows. -/
  inBudget : ∀ (srt : Argsort (Fin E) α) (ctl : Ctl α) (res : Finset (Fin E)),
    (adaptiveTaken env srt ctl counts res num).length ≤ env.ktAdaptiveMaxSwap.toNat
  /-- Every swap adds at least the minimal gain to the mass of the residents. -/
  climbs : ∀ (srt : Argsort (Fin E) α) (ctl : Ctl α) (res : Finset (Fin E)),
    ∀ n < (adaptiveTaken env srt ctl counts res num).length,
      ∑ e ∈ exchange res ((adaptiveTaken env srt ctl counts res num).take n), counts e +
          env.ktAdaptiveMinGain * ∑ e, counts e ≤
        ∑ e ∈ exchange res ((adaptiveTaken env srt ctl counts res num).take (n + 1)), counts e
  /-- Behind the first pair that fails nothing passes. -/
  stops : ∀ (srt : Argsort (Fin E) α) (ctl : Ctl α) (res : Finset (Fin E)) (i a b : ℕ) (c r c' r' : Fin E),
    i ≤ a → i ≤ b →
    (srt.desc counts (whereTrue resᶜ))[i]? = some c → (srt.asc counts (whereTrue res))[i]? = some r →
    (srt.desc counts (whereTrue resᶜ))[a]? = some c' → (srt.asc counts (whereTrue res))[b]? = some r' →
    adaptiveRule env ctl counts res c r = false → adaptiveRule env ctl counts res c' r' = false
  /-- Under the fixed margin the selections on the same counts come to rest. -/
  settles : env.ktAdaptiveAuto = false → ∀ (srts : ℕ → Argsort (Fin E) α) (start : Finset (Fin E) × Ctl α),
    ∃ n, ∀ m, n ≤ m → ktAdaptiveRounds env counts num srts start m = ktAdaptiveRounds env counts num srts start n

section Laws

variable [IsStrictOrderedRing α]

/-- **The adaptive policy keeps the size of the set, climbs within its budget, loses nothing by its early stop, and
comes to rest.** -/
theorem ktAdaptiveSelect_laws (env : Env α) (counts : Fin E → α) (num : ℕ) (h0 : ∀ e, 0 ≤ counts e)
    (hgain : GainAtLeastOne env counts) : AdaptiveLaws env counts num where
  exchanges srt ctl res :=
    ⟨swaps_adaptiveTaken env srt ctl counts res num, ktAdaptiveSelect_eq_exchange h0 hgain srt ctl res num⟩
  keepsSize srt ctl res := by
    rw [ktAdaptiveSelect_eq_exchange h0 hgain, whereTrue_toFinset]
    exact (swaps_adaptiveTaken env srt ctl counts res num).card_exchange
  inBudget srt ctl res := length_adaptiveTaken_le env srt ctl counts res num
  climbs srt ctl res n hn := adaptiveTaken_climbs srt ctl res num hn
  stops srt ctl res i a b c r c' r' ha hb hc hr hc' hr' := adaptiveRule_stop srt ctl res h0 hgain ha hb hc hr hc' hr'
  settles hauto srts start := ktAdaptiveRounds_settle h0 hgain hauto num srts start

/-- Four experts, two of them resident, and a minimal gain of 1.63 counts. -/
theorem ktAdaptiveSelect_laws_four : AdaptiveLaws (Env.unset : Env ℚ) ![10, 700, 20, 900] 2 :=
  ktAdaptiveSelect_laws Env.unset ![10, 700, 20, 900] 2 (by decide) (Or.inr (by decide +kernel))

example : (ktAdaptiveSelect (Env.unset : Env ℚ) Argsort.stable {} ![10, 700, 20, 900] {0, 2} 2).1 = [1, 3] := by
  decide +kernel

end Laws

end ExpertServe
