import ExpertServe.Lib.Run
import ExpertServe.Policy.TierSelect
import Mathlib.Data.Fin.VecNotation
import Mathlib.Data.Fintype.Powerset
import Mathlib.Data.Fintype.Prod
import Mathlib.Data.Prod.Lex

/-!
# Laws of the tier policy

What one selection promises its caller, and what iterating it does.

* `ktTierSelect_disjoint`, `card_ktTierSelect_fst`, `card_ktTierSelect_snd`: the masks it returns are
  disjoint and full;
* `ktTierSelect_wellFormed`: sizes, ladder, budgets and coverage together;
* `ktTierSelect_quiesces`: on fixed counts, iterating the policy under settling gates stops.
-/

namespace ExpertServe

open Lib

variable {E : ℕ} {α : Type*} [Field α] [LinearOrder α]

section Sizes

variable {env : Env α} {srt : Argsort (Fin E) α} {counts : Fin E → α} {gpu ram : Finset (Fin E)} {nGpu nRam : ℕ}

theorem card_ktTierSelect_fst (hdisj : Disjoint gpu ram) :
    (ktTierSelect env srt counts gpu ram nGpu nRam).1.card = gpu.card := by
  rw [ktTierSelect_fst]
  exact card_swapIn hdisj

theorem ktTierSelect_fst_subset (hdisj : Disjoint gpu ram) :
    (ktTierSelect env srt counts gpu ram nGpu nRam).1 ⊆ gpu ∪ ram := by
  rw [ktTierSelect_fst]
  exact swapIn_subset hdisj

/-- The ladder: whoever is new on the GPU was in host RAM. -/
theorem ktTierSelect_ladder (hdisj : Disjoint gpu ram) :
    (ktTierSelect env srt counts gpu ram nGpu nRam).1 \ gpu ⊆ ram := by
  rw [ktTierSelect_fst]
  exact swapIn_sdiff_subset hdisj

/-- The second cut runs between disjoint masks. -/
theorem disjoint_ramCut (newGpu : Finset (Fin E)) : Disjoint ((gpu ∪ ram) \ newGpu) (gpu ∪ ram)ᶜ :=
  disjoint_compl_right.mono_left Finset.sdiff_subset

theorem card_ktTierSelect_snd (hdisj : Disjoint gpu ram) (hram : ram.card = nRam) :
    (ktTierSelect env srt counts gpu ram nGpu nRam).2.card = nRam := by
  rw [ktTierSelect_snd hdisj hram, card_swapIn (disjoint_ramCut _),
    card_union_sdiff hdisj (ktTierSelect_fst_subset hdisj) (card_ktTierSelect_fst hdisj), hram]

theorem ktTierSelect_disjoint (hdisj : Disjoint gpu ram) (hram : ram.card = nRam) :
    Disjoint (ktTierSelect env srt counts gpu ram nGpu nRam).1
      (ktTierSelect env srt counts gpu ram nGpu nRam).2 := by
  rw [Finset.disjoint_left]
  intro e hgpu hmem
  rw [ktTierSelect_snd hdisj hram] at hmem
  rcases Finset.mem_union.mp (swapIn_subset (disjoint_ramCut _) hmem) with hcur | htail
  · exact (Finset.mem_sdiff.mp hcur).2 hgpu
  · exact Finset.mem_compl.mp htail (ktTierSelect_fst_subset hdisj hgpu)

theorem card_ktTierSelect_fst_sdiff_le (hdisj : Disjoint gpu ram) :
    (((ktTierSelect env srt counts gpu ram nGpu nRam).1 \ gpu).card : ℤ) ≤ max 0 env.ktTierMaxPromote := by
  rw [ktTierSelect_fst]
  refine (card_swapIn_sdiff_le hdisj).trans ?_
  omega

/-- At most the RAM budget climbs off the disk. -/
theorem card_ktTierSelect_snd_sdiff_le (hdisj : Disjoint gpu ram) (hram : ram.card = nRam) :
    (((ktTierSelect env srt counts gpu ram nGpu nRam).2 \ (gpu ∪ ram)).card : ℤ) ≤
      max 0 env.ktTierMaxRamMove := by
  have hcut : (((ktTierSelect env srt counts gpu ram nGpu nRam).2 \
      ((gpu ∪ ram) \ (ktTierSelect env srt counts gpu ram nGpu nRam).1)).card : ℤ) ≤
      max 0 (max 0 env.ktTierMaxRamMove) := by
    conv_lhs => rw [ktTierSelect_snd hdisj hram]
    exact card_swapIn_sdiff_le (disjoint_ramCut _)
  have hle : ((ktTierSelect env srt counts gpu ram nGpu nRam).2 \ (gpu ∪ ram)).card ≤
      ((ktTierSelect env srt counts gpu ram nGpu nRam).2 \
        ((gpu ∪ ram) \ (ktTierSelect env srt counts gpu ram nGpu nRam).1)).card :=
    Finset.card_le_card (Finset.sdiff_subset_sdiff subset_rfl Finset.sdiff_subset)
  omega

/-- Whoever is new in host RAM and was not on disk has just left the GPU. -/
theorem ktTierSelect_demoted (hdisj : Disjoint gpu ram) (hram : ram.card = nRam) {e : Fin E}
    (he : e ∈ (ktTierSelect env srt counts gpu ram nGpu nRam).2 \ ram) (hoff : e ∈ gpu ∪ ram) :
    e ∈ gpu \ (ktTierSelect env srt counts gpu ram nGpu nRam).1 := by
  obtain ⟨hmem, hnot⟩ := Finset.mem_sdiff.mp he
  refine Finset.mem_sdiff.mpr ⟨(Finset.mem_union.mp hoff).resolve_right hnot, fun hgpu => ?_⟩
  exact Finset.disjoint_left.mp (ktTierSelect_disjoint hdisj hram) hgpu hmem

end Sizes

/-! ## Coverage -/

section Coverage

variable {env : Env α} {srt : Argsort (Fin E) α} {counts : Fin E → α}
  {gpu ram : Finset (Fin E)} {nGpu nRam : ℕ}

omit [LinearOrder α] in
/-- The mass held on the GPU and in host RAM together, split along a new GPU mask. -/
theorem sum_union_eq {newGpu : Finset (Fin E)} (hsub : newGpu ⊆ gpu ∪ ram) (counts : Fin E → α) :
    ∑ e ∈ gpu ∪ ram, counts e = ∑ e ∈ newGpu, counts e + ∑ e ∈ (gpu ∪ ram) \ newGpu, counts e := by
  rw [add_comm, Finset.sum_sdiff hsub]

theorem sum_ktTierSelect_union (hdisj : Disjoint gpu ram) (hram : ram.card = nRam) :
    ∑ e ∈ (ktTierSelect env srt counts gpu ram nGpu nRam).1 ∪
        (ktTierSelect env srt counts gpu ram nGpu nRam).2, counts e =
      ∑ e ∈ (ktTierSelect env srt counts gpu ram nGpu nRam).1, counts e +
        ∑ e ∈ (ktTierSelect env srt counts gpu ram nGpu nRam).2, counts e :=
  Finset.sum_union (ktTierSelect_disjoint hdisj hram)

variable [IsStrictOrderedRing α]

omit [IsStrictOrderedRing α] in
theorem keepsMass_max_zero {budget : ℤ} {margin minGainFrac : α} (h : KeepsMass budget margin minGainFrac) :
    KeepsMass (max 0 budget) margin minGainFrac := by
  unfold KeepsMass at h ⊢
  exact h.imp_left fun hb => by omega

theorem sum_le_sum_ktTierSelect_fst (h0 : ∀ e, 0 ≤ counts e) (hdisj : Disjoint gpu ram)
    (hkeep : KeepsMass env.ktTierMaxPromote env.ktAdaptiveMargin env.ktAdaptiveMinGain) :
    ∑ e ∈ gpu, counts e ≤ ∑ e ∈ (ktTierSelect env srt counts gpu ram nGpu nRam).1, counts e := by
  rw [ktTierSelect_fst]
  exact sum_le_sum_swapIn h0 hdisj (keepsMass_max_zero hkeep)

theorem sum_le_sum_ktTierSelect_union (h0 : ∀ e, 0 ≤ counts e) (hdisj : Disjoint gpu ram)
    (hram : ram.card = nRam)
    (hkeep : KeepsMass env.ktTierMaxRamMove env.ktTierRamMargin env.ktTierRamMinGain) :
    ∑ e ∈ gpu ∪ ram, counts e ≤
      ∑ e ∈ (ktTierSelect env srt counts gpu ram nGpu nRam).1 ∪
        (ktTierSelect env srt counts gpu ram nGpu nRam).2, counts e := by
  have hsub : (ktTierSelect env srt counts gpu ram nGpu nRam).1 ⊆ gpu ∪ ram := ktTierSelect_fst_subset hdisj
  rw [sum_ktTierSelect_union hdisj hram, sum_union_eq hsub counts]
  refine add_le_add le_rfl ?_
  conv_rhs => rw [ktTierSelect_snd hdisj hram]
  exact sum_le_sum_swapIn h0 (disjoint_ramCut _) (keepsMass_max_zero hkeep)

/-- **The tier policy is well formed.** From disjoint full masks it returns disjoint full masks, climbs one
tier at a time within its budgets, and loses no coverage while its gates only admit pairs that do not. -/
theorem ktTierSelect_wellFormed (env : Env α) (srt : Argsort (Fin E) α) (counts : Fin E → α)
    (gpu ram : Finset (Fin E)) (nGpu nRam : ℕ) (h0 : ∀ e, 0 ≤ counts e) (hdisj : Disjoint gpu ram)
    (hgpu : gpu.card = nGpu) (hram : ram.card = nRam) :
    Disjoint (ktTierSelect env srt counts gpu ram nGpu nRam).1 (ktTierSelect env srt counts gpu ram nGpu nRam).2 ∧
    (ktTierSelect env srt counts gpu ram nGpu nRam).1.card = nGpu ∧
    (ktTierSelect env srt counts gpu ram nGpu nRam).2.card = nRam ∧
    (ktTierSelect env srt counts gpu ram nGpu nRam).1 \ gpu ⊆ ram ∧
    (((ktTierSelect env srt counts gpu ram nGpu nRam).1 \ gpu).card : ℤ) ≤ max 0 env.ktTierMaxPromote ∧
    (((ktTierSelect env srt counts gpu ram nGpu nRam).2 \ (gpu ∪ ram)).card : ℤ) ≤ max 0 env.ktTierMaxRamMove ∧
    (∀ e ∈ (ktTierSelect env srt counts gpu ram nGpu nRam).2 \ ram, e ∈ gpu ∪ ram →
      e ∈ gpu \ (ktTierSelect env srt counts gpu ram nGpu nRam).1) ∧
    ((gpu \ (ktTierSelect env srt counts gpu ram nGpu nRam).1).card : ℤ) ≤ max 0 env.ktTierMaxPromote ∧
    (KeepsMass env.ktTierMaxPromote env.ktAdaptiveMargin env.ktAdaptiveMinGain →
      ∑ e ∈ gpu, counts e ≤ ∑ e ∈ (ktTierSelect env srt counts gpu ram nGpu nRam).1, counts e) ∧
    (KeepsMass env.ktTierMaxRamMove env.ktTierRamMargin env.ktTierRamMinGain →
      ∑ e ∈ gpu ∪ ram, counts e ≤
        ∑ e ∈ (ktTierSelect env srt counts gpu ram nGpu nRam).1 ∪
          (ktTierSelect env srt counts gpu ram nGpu nRam).2, counts e) := by
  have hsize : (ktTierSelect env srt counts gpu ram nGpu nRam).1.card = gpu.card := card_ktTierSelect_fst hdisj
  have hpromote : (((ktTierSelect env srt counts gpu ram nGpu nRam).1 \ gpu).card : ℤ) ≤
      max 0 env.ktTierMaxPromote := card_ktTierSelect_fst_sdiff_le hdisj
  refine ⟨ktTierSelect_disjoint hdisj hram, hsize.trans hgpu, card_ktTierSelect_snd hdisj hram,
    ktTierSelect_ladder hdisj, hpromote, card_ktTierSelect_snd_sdiff_le hdisj hram,
    fun e he hoff => ktTierSelect_demoted hdisj hram he hoff, ?_,
    fun hg => sum_le_sum_ktTierSelect_fst h0 hdisj hg,
    fun hg => sum_le_sum_ktTierSelect_union h0 hdisj hram hg⟩
  rw [Finset.card_sdiff_comm hsize.symm]
  exact hpromote

end Coverage

/-- The shipped gates on four experts, two of them cold residents. -/
theorem ktTierSelect_wellFormed_four :
    Disjoint (ktTierSelect ({} : Env ℚ) Argsort.stable ![1, 10, 0, 20] {0} {1, 2} 1 2).1
        (ktTierSelect ({} : Env ℚ) Argsort.stable ![1, 10, 0, 20] {0} {1, 2} 1 2).2 ∧
      (ktTierSelect ({} : Env ℚ) Argsort.stable ![1, 10, 0, 20] {0} {1, 2} 1 2).2.card = 2 := by
  have h := ktTierSelect_wellFormed ({} : Env ℚ) Argsort.stable ![1, 10, 0, 20] {0} {1, 2} 1 2
    (by decide +kernel) (by decide) (by decide) (by decide)
  exact ⟨h.1, h.2.2.1⟩

/-- With one move allowed into each tier two experts enter host RAM, one off the GPU and one off the disk;
and a ratio margin below one with a negative minimal gain trades a hot expert for a colder one. -/
theorem ktTierSelect_overBudget_and_massDrop :
    (ktTierSelect ({ ktTierMaxPromote := 1, ktTierMaxRamMove := 1 } : Env ℚ) Argsort.stable ![1, 10, 0, 20]
        {0} {1, 2} 1 2).2 \ {1, 2} = ({0, 3} : Finset (Fin 4)) ∧
      ∑ e ∈ (ktTierSelect ({ ktAdaptiveMargin := 1 / 2, ktAdaptiveMinGain := -1 } : Env ℚ) Argsort.stable
        ![2, 3 / 2] {0} {1} 1 1).1, ![(2 : ℚ), 3 / 2] e < ∑ e ∈ {(0 : Fin 2)}, ![(2 : ℚ), 3 / 2] e := by
  refine ⟨by decide +kernel, by decide +kernel⟩

/-! ## Quiescence -/

/-- A pair of tier masks that is disjoint and full. -/
@[ext] structure Tiers (E nGpu nRam : ℕ) where
  gpu : Finset (Fin E)
  ram : Finset (Fin E)
  disjoint : Disjoint gpu ram
  card_gpu : gpu.card = nGpu
  card_ram : ram.card = nRam

namespace Tiers

variable {nGpu nRam : ℕ}

/-- The masks themselves. -/
def toPair (t : Tiers E nGpu nRam) : Finset (Fin E) × Finset (Fin E) := (t.gpu, t.ram)

theorem toPair_injective : Function.Injective (toPair : Tiers E nGpu nRam → _) :=
  fun _ _ h => Tiers.ext (congrArg Prod.fst h) (congrArg Prod.snd h)

instance : Finite (Tiers E nGpu nRam) := Finite.of_injective toPair toPair_injective

/-- One selection, as a map of full disjoint masks. -/
def select (env : Env α) (srt : Argsort (Fin E) α) (counts : Fin E → α) (t : Tiers E nGpu nRam) :
    Tiers E nGpu nRam where
  gpu := (ktTierSelect env srt counts t.gpu t.ram nGpu nRam).1
  ram := (ktTierSelect env srt counts t.gpu t.ram nGpu nRam).2
  disjoint := ktTierSelect_disjoint t.disjoint t.card_ram
  card_gpu := (card_ktTierSelect_fst t.disjoint).trans t.card_gpu
  card_ram := card_ktTierSelect_snd t.disjoint t.card_ram

/-- The mass on the GPU first, then the mass on the GPU and in host RAM together. -/
def coverage (counts : Fin E → α) (t : Tiers E nGpu nRam) : α ×ₗ α :=
  toLex (∑ e ∈ t.gpu, counts e, ∑ e ∈ t.gpu ∪ t.ram, counts e)

variable {env : Env α} {srt : Argsort (Fin E) α} {counts : Fin E → α}

theorem settles_max_zero {budget : ℤ} {margin minGainFrac : α} (h : Settles budget margin minGainFrac) :
    Settles (max 0 budget) margin minGainFrac := by
  unfold Settles at h ⊢
  exact h.imp_left fun hb => by omega

variable [IsStrictOrderedRing α] in
/-- **Progress.** A selection that moves any expert raises the coverage, lexicographically. -/
theorem coverage_lt_select (h0 : ∀ e, 0 ≤ counts e)
    (hgpu : Settles env.ktTierMaxPromote env.ktAdaptiveMargin env.ktAdaptiveMinGain)
    (hram : Settles env.ktTierMaxRamMove env.ktTierRamMargin env.ktTierRamMinGain)
    (t : Tiers E nGpu nRam) (hne : t.select env srt counts ≠ t) :
    t.coverage counts < (t.select env srt counts).coverage counts := by
  have hsnd : (t.select env srt counts).ram =
      swapIn srt counts ((t.gpu ∪ t.ram) \ (t.select env srt counts).gpu) (t.gpu ∪ t.ram)ᶜ
        (max 0 env.ktTierMaxRamMove) env.ktTierRamMargin (env.ktTierRamMinGain * ∑ e, counts e) :=
    @ktTierSelect_snd _ _ _ _ env srt counts t.gpu t.ram nGpu nRam t.disjoint t.card_ram
  by_cases hfix : (t.select env srt counts).gpu = t.gpu
  · have hcur : (t.gpu ∪ t.ram) \ t.gpu = t.ram := by
      rw [Finset.union_sdiff_left]
      exact t.disjoint.symm.sdiff_eq_left
    have hsel : (t.select env srt counts).ram = swapIn srt counts t.ram (t.gpu ∪ t.ram)ᶜ
        (max 0 env.ktTierMaxRamMove) env.ktTierRamMargin (env.ktTierRamMinGain * ∑ e, counts e) := by
      rw [hsnd, hfix, hcur]
    have hmove : (t.select env srt counts).ram ≠ t.ram := fun h => hne (Tiers.ext hfix h)
    rw [hsel] at hmove
    have hlt := sum_lt_sum_swapIn h0 (disjoint_compl_right.mono_left Finset.subset_union_right)
      (settles_max_zero hram) hmove
    rw [← hsel] at hlt
    refine Prod.Lex.lt_iff.mpr (Or.inr ⟨?_, ?_⟩)
    · exact congrArg (fun m => ∑ e ∈ m, counts e) hfix.symm
    · change ∑ e ∈ t.gpu ∪ t.ram, counts e <
        ∑ e ∈ (t.select env srt counts).gpu ∪ (t.select env srt counts).ram, counts e
      rw [Finset.sum_union t.disjoint, Finset.sum_union (t.select env srt counts).disjoint, hfix]
      exact add_lt_add_of_le_of_lt le_rfl hlt
  · refine Prod.Lex.lt_iff.mpr (Or.inl ?_)
    exact sum_lt_sum_swapIn h0 t.disjoint (settles_max_zero hgpu) hfix

theorem iterate_select (n : ℕ) (t : Tiers E nGpu nRam) :
    ((select env srt counts)^[n] t).toPair =
      (fun p => ktTierSelect env srt counts p.1 p.2 nGpu nRam)^[n] t.toPair := by
  have hsemi : Function.Semiconj (toPair : Tiers E nGpu nRam → _) (select env srt counts)
      (fun p => ktTierSelect env srt counts p.1 p.2 nGpu nRam) := fun _ => rfl
  exact hsemi.iterate_right n t

end Tiers

/-- **The tier policy is quiescent.** On fixed counts and from any full disjoint masks, iterating the
selection reaches masks it keeps, if each cut has no budget or a gate that only lets gaining pairs through. -/
theorem ktTierSelect_quiesces [IsStrictOrderedRing α] (env : Env α) (srt : Argsort (Fin E) α)
    (counts : Fin E → α) (gpu ram : Finset (Fin E)) (nGpu nRam : ℕ) (h0 : ∀ e, 0 ≤ counts e)
    (hdisj : Disjoint gpu ram) (hgpu : gpu.card = nGpu) (hram : ram.card = nRam)
    (hgpuCut : Settles env.ktTierMaxPromote env.ktAdaptiveMargin env.ktAdaptiveMinGain)
    (hramCut : Settles env.ktTierMaxRamMove env.ktTierRamMargin env.ktTierRamMinGain) :
    ∃ n, ktTierSelect env srt counts
        ((fun p => ktTierSelect env srt counts p.1 p.2 nGpu nRam)^[n] (gpu, ram)).1
        ((fun p => ktTierSelect env srt counts p.1 p.2 nGpu nRam)^[n] (gpu, ram)).2 nGpu nRam =
      (fun p => ktTierSelect env srt counts p.1 p.2 nGpu nRam)^[n] (gpu, ram) := by
  let t : Tiers E nGpu nRam := ⟨gpu, ram, hdisj, hgpu, hram⟩
  obtain ⟨n, hn⟩ := exists_iterate_fixed (Tiers.select env srt counts) (Tiers.coverage counts)
    (Tiers.coverage_lt_select h0 hgpuCut hramCut) t
  refine ⟨n, ?_⟩
  have hiter : ((Tiers.select env srt counts)^[n] t).toPair =
      (fun p => ktTierSelect env srt counts p.1 p.2 nGpu nRam)^[n] (gpu, ram) := Tiers.iterate_select n t
  rw [← hiter]
  exact congrArg Tiers.toPair hn

/-- On four experts the shipped gates settle. -/
theorem ktTierSelect_quiesces_four :
    ∃ n, ktTierSelect ({} : Env ℚ) Argsort.stable ![1, 10, 0, 20]
        ((fun p => ktTierSelect ({} : Env ℚ) Argsort.stable ![1, 10, 0, 20] p.1 p.2 1 2)^[n] ({0}, {1, 2})).1
        ((fun p => ktTierSelect ({} : Env ℚ) Argsort.stable ![1, 10, 0, 20] p.1 p.2 1 2)^[n] ({0}, {1, 2})).2
        1 2 =
      (fun p => ktTierSelect ({} : Env ℚ) Argsort.stable ![1, 10, 0, 20] p.1 p.2 1 2)^[n] ({0}, {1, 2}) :=
  ktTierSelect_quiesces ({} : Env ℚ) Argsort.stable ![1, 10, 0, 20] {0} {1, 2} 1 2
    (by decide +kernel) (by decide) (by decide) (by decide)
    (Or.inr (Or.inl (by norm_num))) (Or.inr (Or.inl (by norm_num)))

/-- With a margin of one half and no minimal gain two equally hot experts change places at every tick. -/
theorem ktTierSelect_thrashes :
    ¬ ∃ n, ktTierSelect ({ ktAdaptiveMargin := 1 / 2, ktAdaptiveMinGain := 0 } : Env ℚ) Argsort.stable ![1, 1]
        ((fun p => ktTierSelect ({ ktAdaptiveMargin := 1 / 2, ktAdaptiveMinGain := 0 } : Env ℚ)
          Argsort.stable ![1, 1] p.1 p.2 1 1)^[n] ({0}, {1})).1
        ((fun p => ktTierSelect ({ ktAdaptiveMargin := 1 / 2, ktAdaptiveMinGain := 0 } : Env ℚ)
          Argsort.stable ![1, 1] p.1 p.2 1 1)^[n] ({0}, {1})).2 1 1 =
      (fun p => ktTierSelect ({ ktAdaptiveMargin := 1 / 2, ktAdaptiveMinGain := 0 } : Env ℚ)
          Argsort.stable ![1, 1] p.1 p.2 1 1)^[n] ({0}, {1}) := by
  let step : Finset (Fin 2) × Finset (Fin 2) → Finset (Fin 2) × Finset (Fin 2) := fun p =>
    ktTierSelect ({ ktAdaptiveMargin := 1 / 2, ktAdaptiveMinGain := 0 } : Env ℚ) Argsort.stable ![1, 1] p.1 p.2 1 1
  have hthere : step ({0}, {1}) = ({1}, {0}) := by decide +kernel
  have hback : step ({1}, {0}) = ({0}, {1}) := by decide +kernel
  have hcycle : ∀ n, step^[n] ({0}, {1}) = ({0}, {1}) ∨ step^[n] ({0}, {1}) = ({1}, {0}) := by
    intro n
    induction n with
    | zero => exact Or.inl rfl
    | succ n ih =>
      rw [Function.iterate_succ_apply']
      rcases ih with ih | ih
      · exact Or.inr (by rw [ih, hthere])
      · exact Or.inl (by rw [ih, hback])
  rintro ⟨n, hn⟩
  change step (step^[n] ({0}, {1})) = step^[n] ({0}, {1}) at hn
  rcases hcycle n with h | h
  · rw [h, hthere] at hn
    exact absurd hn (by decide)
  · rw [h, hback] at hn
    exact absurd hn (by decide)

end ExpertServe
