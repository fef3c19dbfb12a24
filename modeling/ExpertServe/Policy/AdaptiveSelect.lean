import ExpertServe.Policy.TierSelect

/-!
# The adaptive policy

`_kt_adaptive_select` keeps the hottest experts of one demand ranking on the GPU, by greedy pair swaps under
the same rule as the tier policy, with the ratio margin of a closed-loop controller.

* `ktAdaptiveMarginCtl`: the controller, which keeps its margin between two calls;
* `SwapPays`: the hottest challenger beats the weakest incumbent by the margin and the minimal gain;
* `ktAdaptiveSelect_spec`: the selection has the size of the resident set, and differs from it exactly when
  a swap pays.
-/

namespace ExpertServe

open Lib

variable {E : ℕ} {α : Type*} [Field α] [LinearOrder α]

/-- `_kt_adaptive_margin_ctl`: the margin for this selection, and the controller after it. -/
def ktAdaptiveMarginCtl (env : Env α) (ctl : Ctl α) (counts : Fin E → α) (resMask : Finset (Fin E)) : α × Ctl α :=
  let base := env.ktAdaptiveMargin
  let total := ∑ e, counts e
  if ¬ env.ktAdaptiveAuto then (base, ctl)
  else if total ≤ 0 then (base, ctl)
  else
    let cov := (∑ e ∈ resMask, counts e) / total
    let a := env.ktAdaptiveCovEma
    let c := match ctl.covEma with
      | none => cov
      | some ema => (1 - a) * ema + a * cov
    let m := ctl.margin.getD base
    let m :=
      if env.ktAdaptiveCovHi ≤ c then min (m * env.ktAdaptiveCtlUp) env.ktAdaptiveMarginMax
      else if c ≤ env.ktAdaptiveCovLo then max (m * env.ktAdaptiveCtlDown) env.ktAdaptiveMarginMin
      else m
    (m, ⟨some m, ctl.ticks + 1, some c⟩)

/-- `_kt_adaptive_select`: the desired resident set, as sorted ids, and the controller after it. -/
def ktAdaptiveSelect (env : Env α) (srt : Argsort (Fin E) α) (ctl : Ctl α) (counts : Fin E → α)
    (resMask : Finset (Fin E)) (numGpuExperts : ℕ) : List (Fin E) × Ctl α :=
  let resident := whereTrue resMask
  if resident.length ≠ numGpuExperts then (resident, ctl)
  else if ∑ e, counts e < env.ktAdaptiveMinEvents then (resident, ctl)
  else
    let (margin, ctl) := ktAdaptiveMarginCtl env ctl counts resMask
    let minGain := env.ktAdaptiveMinGain * ∑ e, counts e
    let cand := whereTrue resMaskᶜ
    if cand.length = 0 ∨ env.ktAdaptiveMaxSwap ≤ 0 then (resident, ctl)
    else
      let swaps := accepted (pairRule counts margin minGain) env.ktAdaptiveMaxSwap.toNat (srt.desc counts cand)
        (srt.asc counts resident)
      if swaps = [] then (resident, ctl) else (whereTrue ((resMask \ outs swaps) ∪ ins swaps), ctl)

/-- A swap pays: there is enough demand and budget, and the hottest challenger beats the weakest incumbent by
the margin of the controller and the minimal gain. -/
def SwapPays (env : Env α) (ctl : Ctl α) (counts : Fin E → α) (resMask : Finset (Fin E)) : Prop :=
  env.ktAdaptiveMinEvents ≤ ∑ e, counts e ∧ 0 < env.ktAdaptiveMaxSwap ∧
    ∃ c ∉ resMask, ∃ r ∈ resMask, (∀ c' ∉ resMask, counts c' ≤ counts c) ∧ (∀ r' ∈ resMask, counts r ≤ counts r') ∧
      pairRule counts (ktAdaptiveMarginCtl env ctl counts resMask).1 (env.ktAdaptiveMinGain * ∑ e, counts e) c r

section Select

/-- The rule only looks at the counts of the two experts. -/
theorem pairRule_congr {counts : Fin E → α} {margin minGain : α} {c r c' r' : Fin E}
    (hc : counts c' = counts c) (hr : counts r' = counts r) :
    pairRule counts margin minGain c' r' = pairRule counts margin minGain c r := by
  unfold pairRule
  rw [hc, hr]

/-- A greedy pass over sorted challengers and incumbents takes something exactly when there is budget and the
hottest challenger beats the weakest incumbent. -/
theorem accepted_sorted_ne_nil_iff (srt : Argsort (Fin E) α) (counts : Fin E → α) (res cand : Finset (Fin E))
    (budget : ℕ) (margin minGain : α) :
    accepted (pairRule counts margin minGain) budget (srt.desc counts (whereTrue cand))
        (srt.asc counts (whereTrue res)) ≠ [] ↔
      0 < budget ∧ ∃ c ∈ cand, ∃ r ∈ res, (∀ c' ∈ cand, counts c' ≤ counts c) ∧
        (∀ r' ∈ res, counts r ≤ counts r') ∧ pairRule counts margin minGain c r = true := by
  have hch : ∀ c, c ∈ srt.desc counts (whereTrue cand) ↔ c ∈ cand := fun c => by
    rw [srt.mem_desc, mem_whereTrue]
  have hinc : ∀ r, r ∈ srt.asc counts (whereTrue res) ↔ r ∈ res := fun r => by
    rw [srt.mem_asc, mem_whereTrue]
  have hchs := srt.desc_sorted counts (whereTrue cand)
  have hincs := srt.asc_sorted counts (whereTrue res)
  cases hc : srt.desc counts (whereTrue cand) with
  | nil =>
    rw [hc] at hch
    simp only [accepted_nil_left, ne_eq, not_true_eq_false, false_iff]
    rintro ⟨-, c, hcand, -⟩
    exact List.not_mem_nil ((hch c).mpr hcand)
  | cons c ch =>
    cases hi : srt.asc counts (whereTrue res) with
    | nil =>
      rw [hi] at hinc
      simp only [accepted_nil_right, ne_eq, not_true_eq_false, false_iff]
      rintro ⟨-, -, -, r, hr, -⟩
      exact List.not_mem_nil ((hinc r).mpr hr)
    | cons r inc =>
      rw [hc] at hch hchs
      rw [hi] at hinc hincs
      have hmax : ∀ c' ∈ cand, counts c' ≤ counts c := fun c' hc' => by
        rcases List.mem_cons.mp ((hch c').mpr hc') with rfl | hmem
        · exact le_rfl
        · exact (List.pairwise_cons.mp hchs).1 c' hmem
      have hmin : ∀ r' ∈ res, counts r ≤ counts r' := fun r' hr' => by
        rcases List.mem_cons.mp ((hinc r').mpr hr') with rfl | hmem
        · exact le_rfl
        · exact (List.pairwise_cons.mp hincs).1 r' hmem
      have hccand : c ∈ cand := (hch c).mp List.mem_cons_self
      have hrres : r ∈ res := (hinc r).mp List.mem_cons_self
      rw [ne_eq, accepted_cons_eq_nil_iff, not_or, Bool.not_eq_false, ← ne_eq, ← Nat.pos_iff_ne_zero]
      refine and_congr_right fun _ => ⟨fun hok => ⟨c, hccand, r, hrres, hmax, hmin, hok⟩, ?_⟩
      rintro ⟨c', hc', r', hr', hmax', hmin', hok⟩
      have hceq : counts c = counts c' := le_antisymm (hmax' c hccand) (hmax c' hc')
      have hreq : counts r = counts r' := le_antisymm (hmin r' hr') (hmin' r hrres)
      rw [pairRule_congr hceq hreq]
      exact hok

/-- **What the selection is.** A set of the size of the resident one, which is another set exactly when a swap
pays. -/
theorem ktAdaptiveSelect_spec (env : Env α) (srt : Argsort (Fin E) α) (ctl : Ctl α) (counts : Fin E → α)
    (res : Finset (Fin E)) :
    ∃ sel : Finset (Fin E), (ktAdaptiveSelect env srt ctl counts res res.card).1 = whereTrue sel ∧
      sel.card = res.card ∧ (sel ≠ res ↔ SwapPays env ctl counts res) := by
  unfold ktAdaptiveSelect SwapPays
  dsimp only
  rw [if_neg (not_not.mpr (length_whereTrue res))]
  by_cases hev : ∑ e, counts e < env.ktAdaptiveMinEvents
  · rw [if_pos hev]
    exact ⟨res, rfl, rfl, fun h => absurd rfl h, fun h => absurd h.1 (not_le.mpr hev)⟩
  rw [if_neg hev]
  have hout : ∀ c, c ∈ resᶜ ↔ c ∉ res := fun c => Finset.mem_compl
  by_cases hnone : (whereTrue resᶜ).length = 0 ∨ env.ktAdaptiveMaxSwap ≤ 0
  · rw [if_pos hnone]
    refine ⟨res, rfl, rfl, fun h => absurd rfl h, ?_⟩
    rintro ⟨-, hswap, c, hc, -⟩
    rcases hnone with hempty | hbudget
    · rw [List.length_eq_zero_iff, whereTrue_eq_nil] at hempty
      exact absurd ((hout c).mpr hc) (hempty ▸ Finset.notMem_empty c)
    · omega
  rw [if_neg hnone]
  push Not at hnone
  have hpays := accepted_sorted_ne_nil_iff srt counts res resᶜ env.ktAdaptiveMaxSwap.toNat
    (ktAdaptiveMarginCtl env ctl counts res).1 (env.ktAdaptiveMinGain * ∑ e, counts e)
  have hswaps : Swaps res (accepted (pairRule counts (ktAdaptiveMarginCtl env ctl counts res).1
      (env.ktAdaptiveMinGain * ∑ e, counts e)) env.ktAdaptiveMaxSwap.toNat (srt.desc counts (whereTrue resᶜ))
      (srt.asc counts (whereTrue res))) := by
    refine Swaps.accepted (srt.nodup_desc (whereTrue_nodup _)) (srt.nodup_asc (whereTrue_nodup _)) ?_ ?_
    · intro i hi
      exact (hout i).mp (mem_whereTrue.mp (srt.mem_desc.mp hi))
    · intro i hi
      exact mem_whereTrue.mp (srt.mem_asc.mp hi)
  simp only [hout] at hpays
  have hcond : env.ktAdaptiveMinEvents ≤ ∑ e, counts e := not_lt.mp hev
  have hbudget : 0 < env.ktAdaptiveMaxSwap.toNat := by omega
  generalize accepted _ _ _ _ = swaps at hpays hswaps ⊢
  by_cases hempty : swaps = []
  · rw [if_pos hempty]
    refine ⟨res, rfl, rfl, fun h => absurd rfl h, fun h => ?_⟩
    exact absurd hempty (hpays.mpr ⟨hbudget, h.2.2⟩)
  · rw [if_neg hempty]
    refine ⟨exchange res swaps, ?_, hswaps.card_exchange, fun _ => ?_, fun _ => hswaps.exchange_ne hempty⟩
    · rw [hswaps.exchange_eq]
    · exact ⟨hcond, hnone.2, (hpays.mp hempty).2⟩

end Select

end ExpertServe
