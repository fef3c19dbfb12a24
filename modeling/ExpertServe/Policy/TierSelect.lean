import ExpertServe.Env
import ExpertServe.Lib.PairSwap
import ExpertServe.Lib.Rank
import Mathlib.Tactic.Linarith

/-!
# The tier policy

`ktTierSelect` cuts one demand ranking twice: the hottest experts to the GPU, the next to host RAM. Both
cuts are the same `swapIn`, greedy pair swaps under the ratio-and-gain rule `pairRule`.

* `swapIn_eq_exchange`: one cut is an exchange of at most `budget` pairs that pass the rule;
* `sum_le_sum_swapIn`, `sum_lt_sum_swapIn`: what a cut does to the mass its tier holds;
* `ktTierSelect_snd`: with both masks full the trim and backfill between the cuts never fire.
-/

namespace ExpertServe

open Lib

variable {E : ℕ} {α : Type*} [Field α] [LinearOrder α]

/-- The pair rule: the challenger wins by the ratio margin and buys at least the minimal gain. -/
def pairRule (counts : Fin E → α) (margin minGain : α) (ch out : Fin E) : Bool :=
  decide (margin * counts out + eMinus 9 < counts ch ∧ minGain ≤ counts ch - counts out)

/-- `swap_in`: move up to `budget` experts from the candidates into the resident mask. -/
def swapIn (srt : Argsort (Fin E) α) (counts : Fin E → α) (resident candidates : Finset (Fin E))
    (budget : ℤ) (margin minGain : α) : Finset (Fin E) :=
  if budget ≤ 0 then resident
  else
    let inc := whereTrue resident
    let cand := whereTrue candidates
    if inc.isEmpty || cand.isEmpty then resident
    else
      exchange resident
        (accepted (pairRule counts margin minGain) budget.toNat (srt.desc counts cand) (srt.asc counts inc))

/-- The budget between the two cuts: trim the weakest of an overfull mask, backfill a short one with the
hottest of the pool. -/
def fitBudget (srt : Argsort (Fin E) α) (counts : Fin E → α) (ramPool curRam : Finset (Fin E)) (nRam : ℕ) :
    Finset (Fin E) :=
  if nRam < curRam.card then
    curRam \ ((srt.asc counts (whereTrue curRam)).take (curRam.card - nRam)).toFinset
  else if curRam.card < nRam then
    curRam ∪ ((srt.desc counts (whereTrue (ramPool \ curRam))).take (nRam - curRam.card)).toFinset
  else curRam

/-- `_kt_tier_select`: the desired GPU and RAM masks for one layer. -/
def ktTierSelect (env : Env α) (srt : Argsort (Fin E) α) (counts : Fin E → α) (gpuMask ramMask : Finset (Fin E))
    (_nGpu nRam : ℕ) : Finset (Fin E) × Finset (Fin E) :=
  let total := ∑ e, counts e
  let minGain := env.ktAdaptiveMinGain * total
  let ramMinGain := env.ktTierRamMinGain * total
  let maxPromote := max 0 env.ktTierMaxPromote
  let maxRamMove := max 0 env.ktTierMaxRamMove
  let newGpu := swapIn srt counts gpuMask ramMask maxPromote env.ktAdaptiveMargin minGain
  let ramPool := newGpuᶜ
  let demoted := gpuMask \ newGpu
  let curRam := fitBudget srt counts ramPool ((ramMask ∩ ramPool) ∪ demoted) nRam
  (newGpu, swapIn srt counts curRam (ramPool \ curRam) maxRamMove env.ktTierRamMargin ramMinGain)

/-! ## One cut -/

section SwapIn

variable {srt : Argsort (Fin E) α} {counts : Fin E → α} {res cand : Finset (Fin E)} {budget : ℤ}
  {margin minGain : α}

/-- A cut is an exchange of pairs that pass the rule, at most `budget` of them. -/
theorem swapIn_eq_exchange (srt : Argsort (Fin E) α) (counts : Fin E → α) (budget : ℤ) (margin minGain : α)
    (hdisj : Disjoint res cand) :
    ∃ ps, Swaps res ps ∧ swapIn srt counts res cand budget margin minGain = exchange res ps ∧
      ins ps ⊆ cand ∧ (ps.length : ℤ) ≤ max 0 budget ∧
      ∀ p ∈ ps, pairRule counts margin minGain p.1 p.2 = true := by
  have hnil : Swaps res [] := ⟨by simp, by simp, by simp, by simp⟩
  unfold swapIn
  by_cases hb : budget ≤ 0
  · refine ⟨[], hnil, ?_, by simp [ins], by simp, by simp⟩
    rw [if_pos hb, exchange_nil]
  rw [if_neg hb]
  dsimp only
  by_cases he : (whereTrue res).isEmpty || (whereTrue cand).isEmpty
  · refine ⟨[], hnil, ?_, by simp [ins], by simp, by simp⟩
    rw [if_pos he, exchange_nil]
  rw [if_neg he]
  refine ⟨_, Swaps.accepted (srt.nodup_desc (whereTrue_nodup cand)) (srt.nodup_asc (whereTrue_nodup res))
    ?_ ?_, rfl, ?_, ?_, fun p hp => ok_of_mem_accepted hp⟩
  · intro i hi
    exact Finset.disjoint_right.mp hdisj (mem_whereTrue.mp (srt.mem_desc.mp hi))
  · intro i hi
    exact mem_whereTrue.mp (srt.mem_asc.mp hi)
  · intro i hi
    obtain ⟨p, hp, rfl⟩ := mem_ins.mp hi
    exact mem_whereTrue.mp (srt.mem_desc.mp (mem_of_mem_accepted hp).1)
  · have hlen : (accepted (pairRule counts margin minGain) budget.toNat (srt.desc counts (whereTrue cand))
        (srt.asc counts (whereTrue res))).length ≤ budget.toNat := length_accepted_le
    omega

theorem swapIn_of_budget_nonpos (h : budget ≤ 0) :
    swapIn srt counts res cand budget margin minGain = res := by
  rw [swapIn, if_pos h]

theorem card_swapIn (hdisj : Disjoint res cand) :
    (swapIn srt counts res cand budget margin minGain).card = res.card := by
  obtain ⟨ps, hps, heq, -⟩ := swapIn_eq_exchange srt counts budget margin minGain hdisj
  rw [heq, hps.card_exchange]

/-- Even where the candidates overlap the residents, a cut leaves no more of them. -/
theorem card_swapIn_le : (swapIn srt counts res cand budget margin minGain).card ≤ res.card := by
  unfold swapIn
  split
  · exact le_rfl
  dsimp only
  split
  · exact le_rfl
  have hpre : accepted (pairRule counts margin minGain) budget.toNat (srt.desc counts (whereTrue cand))
      (srt.asc counts (whereTrue res)) <+: _ := accepted_pre
  refine card_exchange_le ?_ fun p hp => ?_
  · exact (hpre.map Prod.snd).sublist.nodup ((map_snd_zip_pre _ _).sublist.nodup (srt.nodup_asc (whereTrue_nodup res)))
  · exact mem_whereTrue.mp (srt.mem_asc.mp (mem_of_mem_accepted hp).2)

theorem swapIn_subset (hdisj : Disjoint res cand) :
    swapIn srt counts res cand budget margin minGain ⊆ res ∪ cand := by
  obtain ⟨ps, hps, heq, hins, -⟩ := swapIn_eq_exchange srt counts budget margin minGain hdisj
  rw [heq, hps.exchange_eq]
  exact Finset.union_subset_union Finset.sdiff_subset hins

theorem swapIn_sdiff_subset (hdisj : Disjoint res cand) :
    swapIn srt counts res cand budget margin minGain \ res ⊆ cand := by
  intro i hi
  obtain ⟨hi, hnot⟩ := Finset.mem_sdiff.mp hi
  exact (Finset.mem_union.mp (swapIn_subset hdisj hi)).resolve_left hnot

theorem card_swapIn_sdiff_le (hdisj : Disjoint res cand) :
    ((swapIn srt counts res cand budget margin minGain \ res).card : ℤ) ≤ max 0 budget := by
  obtain ⟨ps, hps, heq, -, hlen, -⟩ := swapIn_eq_exchange srt counts budget margin minGain hdisj
  have hle := hps.card_arrivals_le
  rw [heq]
  omega

end SwapIn

/-! ## Gains -/

section Gain

variable [IsStrictOrderedRing α] {srt : Argsort (Fin E) α} {counts : Fin E → α} {res cand : Finset (Fin E)}
  {budget : ℤ} {margin minGain : α} {ch out : Fin E}

/-- A pair that passes the rule does not lose mass, if the margin is at least one or the minimal gain is
not negative. -/
theorem le_of_pairRule (hgate : 1 ≤ margin ∨ 0 ≤ minGain) (h0 : 0 ≤ counts out)
    (h : pairRule counts margin minGain ch out = true) : counts out ≤ counts ch := by
  obtain ⟨hratio, hgain⟩ := of_decide_eq_true h
  rcases hgate with hm | hg
  · have hle : 1 * counts out ≤ margin * counts out := mul_le_mul_of_nonneg_right hm h0
    have heps : (0 : α) < eMinus 9 := eMinus_pos 9
    linarith
  · linarith

/-- A pair that passes the rule gains mass, if the margin is at least one or the minimal gain is positive. -/
theorem lt_of_pairRule (hgate : 1 ≤ margin ∨ 0 < minGain) (h0 : 0 ≤ counts out)
    (h : pairRule counts margin minGain ch out = true) : counts out < counts ch := by
  obtain ⟨hratio, hgain⟩ := of_decide_eq_true h
  rcases hgate with hm | hg
  · have hle : 1 * counts out ≤ margin * counts out := mul_le_mul_of_nonneg_right hm h0
    have heps : (0 : α) < eMinus 9 := eMinus_pos 9
    linarith
  · linarith

/-- With no mass at all no pair passes the rule. -/
theorem pairRule_of_total_zero (h0 : ∀ e, 0 ≤ counts e) (htotal : ∑ e, counts e = 0) :
    pairRule counts margin minGain ch out = false := by
  have hzero : ∀ e, counts e = 0 := fun e =>
    (Finset.sum_eq_zero_iff_of_nonneg fun i _ => h0 i).mp htotal e (Finset.mem_univ e)
  refine decide_eq_false fun h => ?_
  have heps : (0 : α) < eMinus 9 := eMinus_pos 9
  rw [hzero, hzero, mul_zero, zero_add] at h
  exact absurd (heps.trans h.1) (lt_irrefl _)

/-- When a cut cannot lose mass: it has no budget, or its gate lets no losing pair through. -/
def KeepsMass (budget : ℤ) (margin minGainFrac : α) : Prop :=
  budget ≤ 0 ∨ 1 ≤ margin ∨ 0 ≤ minGainFrac

theorem sum_le_sum_swapIn {minGainFrac : α} (h0 : ∀ e, 0 ≤ counts e) (hdisj : Disjoint res cand)
    (hkeep : KeepsMass budget margin minGainFrac) :
    ∑ e ∈ res, counts e ≤
      ∑ e ∈ swapIn srt counts res cand budget margin (minGainFrac * ∑ e, counts e), counts e := by
  obtain ⟨ps, hps, heq, -, -, hrule⟩ := swapIn_eq_exchange srt counts budget margin
    (minGainFrac * ∑ e, counts e) hdisj
  by_cases hb : budget ≤ 0
  · rw [swapIn_of_budget_nonpos hb]
  have hgate : 1 ≤ margin ∨ 0 ≤ minGainFrac * ∑ e, counts e := by
    rcases hkeep.resolve_left hb with hm | hg
    · exact Or.inl hm
    · exact Or.inr (mul_nonneg hg (Finset.sum_nonneg fun e _ => h0 e))
  rw [heq]
  exact hps.sum_le_sum_exchange fun p hp => le_of_pairRule hgate (h0 _) (hrule p hp)

/-- When a cut cannot cycle: it has no budget, or its gate lets only gaining pairs through. -/
def Settles (budget : ℤ) (margin minGainFrac : α) : Prop :=
  budget ≤ 0 ∨ 1 ≤ margin ∨ 0 < minGainFrac

/-- A settling cut that moves gains mass. -/
theorem sum_lt_sum_swapIn {minGainFrac : α} (h0 : ∀ e, 0 ≤ counts e) (hdisj : Disjoint res cand)
    (hset : Settles budget margin minGainFrac)
    (hne : swapIn srt counts res cand budget margin (minGainFrac * ∑ e, counts e) ≠ res) :
    ∑ e ∈ res, counts e <
      ∑ e ∈ swapIn srt counts res cand budget margin (minGainFrac * ∑ e, counts e), counts e := by
  obtain ⟨ps, hps, heq, -, -, hrule⟩ := swapIn_eq_exchange srt counts budget margin (minGainFrac * ∑ e, counts e) hdisj
  have hnil : ps ≠ [] := by
    rintro rfl
    exact hne heq
  obtain ⟨p, hp⟩ := List.exists_mem_of_ne_nil ps hnil
  have htotal : 0 < ∑ e, counts e := by
    refine lt_of_le_of_ne (Finset.sum_nonneg fun e _ => h0 e) fun hz => ?_
    have hfalse := hrule p hp
    rw [pairRule_of_total_zero h0 hz.symm] at hfalse
    exact Bool.false_ne_true hfalse
  have hgate : 1 ≤ margin ∨ 0 < minGainFrac * ∑ e, counts e := by
    rcases hset with hb | hm | hg
    · exact absurd (swapIn_of_budget_nonpos hb) hne
    · exact Or.inl hm
    · exact Or.inr (mul_pos hg htotal)
  rw [heq]
  exact hps.sum_lt_sum_exchange hnil fun q hq => lt_of_pairRule hgate (h0 _) (hrule q hq)

end Gain

/-! ## The two cuts -/

section Select

variable {env : Env α} {srt : Argsort (Fin E) α} {counts : Fin E → α} {gpu ram : Finset (Fin E)} {nGpu nRam : ℕ}

/-- The GPU mask a selection asks for. -/
theorem ktTierSelect_fst : (ktTierSelect env srt counts gpu ram nGpu nRam).1 =
    swapIn srt counts gpu ram (max 0 env.ktTierMaxPromote) env.ktAdaptiveMargin
      (env.ktAdaptiveMinGain * ∑ e, counts e) := rfl

omit [Field α] in
theorem fitBudget_of_card_eq {pool cur : Finset (Fin E)} (h : cur.card = nRam) :
    fitBudget srt counts pool cur nRam = cur := by
  rw [fitBudget, if_neg (by omega), if_neg (by omega)]

omit [Field α] in
/-- Between the cuts the budget is met exactly, as far as the pool allows. -/
theorem card_fitBudget {pool cur : Finset (Fin E)} (hsub : cur ⊆ pool) (hpool : nRam ≤ pool.card) :
    (fitBudget srt counts pool cur nRam).card = nRam := by
  unfold fitBudget
  split
  · next hover =>
    have hnodup : ((srt.asc counts (whereTrue cur)).take (cur.card - nRam)).Nodup :=
      (srt.nodup_asc (whereTrue_nodup cur)).sublist (List.take_sublist _ _)
    rw [Finset.card_sdiff_of_subset, List.toFinset_card_of_nodup hnodup, List.length_take, srt.length_asc,
      length_whereTrue]
    · omega
    · intro e he
      exact mem_whereTrue.mp (srt.mem_asc.mp (List.mem_of_mem_take (List.mem_toFinset.mp he)))
  · split
    · next hunder =>
      have hnodup : ((srt.desc counts (whereTrue (pool \ cur))).take (nRam - cur.card)).Nodup :=
        (srt.nodup_desc (whereTrue_nodup _)).sublist (List.take_sublist _ _)
      have hroom : (pool \ cur).card = pool.card - cur.card := Finset.card_sdiff_of_subset hsub
      rw [Finset.card_union_of_disjoint, List.toFinset_card_of_nodup hnodup, List.length_take, srt.length_desc,
        length_whereTrue]
      · omega
      · rw [Finset.disjoint_right]
        intro e he
        have hmem := mem_whereTrue.mp (srt.mem_desc.mp (List.mem_of_mem_take (List.mem_toFinset.mp he)))
        exact (Finset.mem_sdiff.mp hmem).2
    · omega

/-- What competes for host RAM after the GPU cut is everything that was off disk and is not on the GPU. -/
theorem curRam_eq {newGpu : Finset (Fin E)} :
    (ram ∩ newGpuᶜ) ∪ (gpu \ newGpu) = (gpu ∪ ram) \ newGpu := by
  ext e
  simp only [Finset.mem_union, Finset.mem_inter, Finset.mem_compl, Finset.mem_sdiff]
  tauto

theorem card_union_sdiff {newGpu : Finset (Fin E)} (hdisj : Disjoint gpu ram) (hsub : newGpu ⊆ gpu ∪ ram)
    (hcard : newGpu.card = gpu.card) : ((gpu ∪ ram) \ newGpu).card = ram.card := by
  rw [Finset.card_sdiff_of_subset hsub, Finset.card_union_of_disjoint hdisj, hcard]
  omega

/-- The RAM mask a selection asks for: with the RAM mask full neither trim nor backfill fires, and the
cut runs between what is off disk and the disk tail. -/
theorem ktTierSelect_snd (hdisj : Disjoint gpu ram) (hram : ram.card = nRam) :
    (ktTierSelect env srt counts gpu ram nGpu nRam).2 =
      swapIn srt counts ((gpu ∪ ram) \ (ktTierSelect env srt counts gpu ram nGpu nRam).1) (gpu ∪ ram)ᶜ
        (max 0 env.ktTierMaxRamMove) env.ktTierRamMargin (env.ktTierRamMinGain * ∑ e, counts e) := by
  have hsub : (ktTierSelect env srt counts gpu ram nGpu nRam).1 ⊆ gpu ∪ ram := by
    rw [ktTierSelect_fst]
    exact swapIn_subset hdisj
  have hcard : (ktTierSelect env srt counts gpu ram nGpu nRam).1.card = gpu.card := by
    rw [ktTierSelect_fst]
    exact card_swapIn hdisj
  have hfit := card_union_sdiff hdisj hsub hcard
  rw [hram] at hfit
  have hpool : (ktTierSelect env srt counts gpu ram nGpu nRam).1ᶜ \
      ((gpu ∪ ram) \ (ktTierSelect env srt counts gpu ram nGpu nRam).1) = (gpu ∪ ram)ᶜ := by
    ext e
    have he := @hsub e
    simp only [Finset.mem_sdiff, Finset.mem_compl] at he ⊢
    tauto
  have hfst := @ktTierSelect_fst _ _ _ _ env srt counts gpu ram nGpu nRam
  rw [← hpool]
  conv_lhs => unfold ktTierSelect
  dsimp only
  rw [← hfst, curRam_eq, fitBudget_of_card_eq hfit]

/-- **The RAM mask a selection asks for has exactly the size asked for**, whether or not the tiers overlap. -/
theorem card_ktTierSelect_snd_of_le (hfit : gpu.card + nRam ≤ E) :
    (ktTierSelect env srt counts gpu ram nGpu nRam).2.card = nRam := by
  have hgpu : (ktTierSelect env srt counts gpu ram nGpu nRam).1.card ≤ gpu.card := by
    rw [ktTierSelect_fst]
    exact card_swapIn_le
  have hcut : ∀ cur pool : Finset (Fin E), Disjoint cur (pool \ cur) := fun cur pool => Finset.disjoint_sdiff
  have hfst := @ktTierSelect_fst _ _ _ _ env srt counts gpu ram nGpu nRam
  unfold ktTierSelect
  dsimp only
  rw [← hfst, card_swapIn (hcut _ _)]
  refine card_fitBudget (Finset.union_subset Finset.inter_subset_right ?_) ?_
  · intro e he
    exact Finset.mem_compl.mpr (Finset.mem_sdiff.mp he).2
  · rw [Finset.card_compl, Fintype.card_fin]
    omega

end Select

end ExpertServe
