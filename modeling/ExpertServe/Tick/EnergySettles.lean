import ExpertServe.Tick.Energy
import Mathlib.Data.Fin.VecNotation
import Mathlib.Data.Fintype.Pi
import Mathlib.Data.Fintype.Powerset
import Mathlib.Data.Fintype.Prod
import Mathlib.Data.Prod.Lex
import Mathlib.Tactic.NormNum

/-!
# The energy controller comes to rest

On fixed energies a tick can move one expert into host RAM for a colder one, and restage the GPU with the hottest
experts of both tiers. A restage leaves what it takes off the GPU on disk unless it is in host RAM as well, so it
neither widens the tiers nor, on tiers it leaves as wide, finds anything to do again.

* `tierPotential`: the size of host RAM, its energy, how little the tiers hold, and whether the GPU holds the hottest
  of it, in this order;
* `masks_potential_lt`: a tick that changes the masks of a layer raises its potential;
* `energySteps_settle`: so the masks of all layers are those of some tick from that tick on;
* `energy_settles`: and no expert on disk is worth moving by then, if the budget allows a move at all.
-/

namespace ExpertServe

open Lib

variable {E L : ℕ} {α : Type*} [Field α] [LinearOrder α]

/-! ## Runs -/

/-- The server after `t` decode steps. -/
def energySteps (env : Env α) (q : Quant) (srt : Argsort (Fin E) α) (stores : ℕ → Fin L → Finset (Fin E))
    (evs : ℕ → EnergyEvent E L α) (s : Server E L α) : ℕ → Server E L α
  | 0 => s
  | t + 1 => ktEnergyOnDecodeStep env q srt (stores t) (energySteps env q srt stores evs s t) (evs t)

/-- Every call into the CPU store returns, and a move that every due tick asks for is not put off at all of them: its
weights are ready at one. -/
structure EnergyServed (env : Env α) (run : ℕ → Server E L α) (evs : ℕ → EnergyEvent E L α) : Prop where
  evict : ∀ t i x, (evs t).evict i x = .ok
  stage : ∀ t i x, (evs t).stage i x = .ok
  ready : ∀ t p, (∃ t', t ≤ t' ∧ energyDue env L (run t').energyStep) →
    (∀ t', t ≤ t' → energyDue env L (run t').energyStep → p ∈ (energyTodo env (run t') (evs t').allE).1) →
    ∃ t', t ≤ t' ∧ energyDue env L (run t').energyStep ∧ (evs t').ready p.layer p.promote

/-- No expert on disk is worth moving for the weakest expert in host RAM. -/
def EnergyQuiet (env : Env α) (m : Method E) (e : Fin E → α) : Prop :=
  ∀ x ∉ m.gpuExpertsMask ∪ m.ramExpertsMask, ∀ w ∈ m.ramExpertsMask, (∀ y ∈ m.ramExpertsMask, e w ≤ e y) →
    ktEnergyWorthMoving e (e x) (e w) env.ktEnergyMargin env.ktEnergyMinGainMean = false

/-! ## The masks of one layer -/

section Layer

variable {srt : Argsort (Fin E) α} {e : Fin E → α} {n : ℕ} {gpu ram gpu' ram' : Finset (Fin E)}

/-- The `n` most energetic experts of a set. -/
def hottest (srt : Argsort (Fin E) α) (e : Fin E → α) (n : ℕ) (tiers : Finset (Fin E)) : Finset (Fin E) :=
  ((srt.desc e (whereTrue tiers)).take n).toFinset

omit [Field α] in
theorem hottest_subset {tiers : Finset (Fin E)} : hottest srt e n tiers ⊆ tiers := by
  intro x hx
  unfold hottest at hx
  exact mem_whereTrue.mp (srt.mem_desc.mp (List.mem_of_mem_take (List.mem_toFinset.mp hx)))

omit [Field α] in
theorem restagedGpu_cases (q : Quant) (m : Method E) :
    restagedGpu q srt e m = m.gpuExpertsMask ∨
      restagedGpu q srt e m = hottest srt e m.numGpuExperts (m.gpuExpertsMask ∪ m.ramExpertsMask) := by
  unfold restagedGpu
  split
  · exact Or.inl rfl
  · exact Or.inr rfl

/-- What host RAM can look like after a tick: as before, one expert short, or with a hotter one in its place. -/
inductive RamTicked (e : Fin E → α) (gpu ram : Finset (Fin E)) : Finset (Fin E) → Prop where
  | kept : RamTicked e gpu ram ram
  | lost (w : Fin E) (hw : w ∈ ram) : RamTicked e gpu ram (ram.erase w)
  | moved (x w : Fin E) (hx : x ∉ gpu ∪ ram) (hw : w ∈ ram) (hlt : e w < e x) :
      RamTicked e gpu ram (insert x (ram.erase w))

/-- How far the masks of a layer have come. -/
def tierPotential (srt : Argsort (Fin E) α) (e : Fin E → α) (n : ℕ) (gpu ram : Finset (Fin E)) : ℕ ×ₗ α ×ₗ ℕ ×ₗ ℕ :=
  toLex (ramᶜ.card, toLex (∑ x ∈ ram, e x, toLex ((gpu ∪ ram)ᶜ.card,
    if gpu = hottest srt e n (gpu ∪ ram) then 1 else 0)))

theorem tierPotential_lt_of_lost {w : Fin E} (hw : w ∈ ram) :
    tierPotential srt e n gpu ram < tierPotential srt e n gpu' (ram.erase w) := by
  refine Prod.Lex.lt_iff.mpr (Or.inl ?_)
  show ramᶜ.card < (ram.erase w)ᶜ.card
  rw [Finset.compl_erase, Finset.card_insert_of_notMem (Finset.notMem_compl.mpr hw)]
  exact Nat.lt_succ_self _

variable [IsStrictOrderedRing α] in
theorem tierPotential_lt_of_moved {x w : Fin E} (hx : x ∉ ram) (hw : w ∈ ram) (hlt : e w < e x) :
    tierPotential srt e n gpu ram < tierPotential srt e n gpu' (insert x (ram.erase w)) := by
  have hx' : x ∉ ram.erase w := fun h => hx (Finset.mem_of_mem_erase h)
  refine Prod.Lex.lt_iff.mpr (Or.inr ⟨?_, Prod.Lex.lt_iff.mpr (Or.inl ?_)⟩)
  · show ramᶜ.card = (insert x (ram.erase w))ᶜ.card
    rw [Finset.card_compl, Finset.card_compl, Finset.card_insert_of_notMem hx', Finset.card_erase_add_one hw]
  · show ∑ y ∈ ram, e y < ∑ y ∈ insert x (ram.erase w), e y
    rw [Finset.sum_insert hx', ← Finset.add_sum_erase ram e hw]
    exact add_lt_add_left hlt _

/-- A restage that changes the GPU set narrows the tiers, or has brought the GPU to what a restage would ask for. -/
theorem tierPotential_lt_of_restaged (hne : hottest srt e n (gpu ∪ ram) ≠ gpu) :
    tierPotential srt e n gpu ram < tierPotential srt e n (hottest srt e n (gpu ∪ ram)) ram := by
  have hsub : hottest srt e n (gpu ∪ ram) ∪ ram ⊆ gpu ∪ ram :=
    Finset.union_subset hottest_subset Finset.subset_union_right
  refine Prod.Lex.lt_iff.mpr (Or.inr ⟨rfl, Prod.Lex.lt_iff.mpr (Or.inr ⟨rfl, ?_⟩)⟩)
  rcases hsub.eq_or_ssubset with hsame | hnarrower
  · refine Prod.Lex.lt_iff.mpr (Or.inr ⟨?_, ?_⟩)
    · show (gpu ∪ ram)ᶜ.card = (hottest srt e n (gpu ∪ ram) ∪ ram)ᶜ.card
      rw [hsame]
    · show (if gpu = hottest srt e n (gpu ∪ ram) then 1 else 0) <
        if hottest srt e n (gpu ∪ ram) = hottest srt e n (hottest srt e n (gpu ∪ ram) ∪ ram) then 1 else 0
      rw [hsame, if_neg hne.symm, if_pos rfl]
      exact Nat.one_pos
  · refine Prod.Lex.lt_iff.mpr (Or.inl ?_)
    exact Finset.card_lt_card (Finset.compl_ssubset_compl.mpr hnarrower)

variable [IsStrictOrderedRing α] in
/-- **Progress.** A tick that changes the masks of a layer raises its potential. -/
theorem masks_potential_lt (hram : RamTicked e gpu ram ram')
    (hgpu : gpu' = gpu ∨ gpu' = hottest srt e n (gpu ∪ ram')) (hne : (gpu', ram') ≠ (gpu, ram)) :
    tierPotential srt e n gpu ram < tierPotential srt e n gpu' ram' := by
  cases hram with
  | lost w hw => exact tierPotential_lt_of_lost hw
  | moved x w hx hw hlt => exact tierPotential_lt_of_moved (fun h => hx (Finset.mem_union_right _ h)) hw hlt
  | kept =>
    have hmove : gpu' ≠ gpu := fun h => hne (by rw [h])
    obtain rfl := hgpu.resolve_left hmove
    exact tierPotential_lt_of_restaged hmove

end Layer

/-! ## The gate -/

section Gate

variable {env : Env α} {e : Fin E → α} {m : Method E} {i : Fin L}

theorem ktEnergyWorthMoving_mono {ch ch' inc margin minGainMean : α} [IsStrictOrderedRing α] (h : ch ≤ ch')
    (hworth : ktEnergyWorthMoving e ch inc margin minGainMean = true) :
    ktEnergyWorthMoving e ch' inc margin minGainMean = true := by
  unfold ktEnergyWorthMoving at hworth ⊢
  obtain ⟨hmargin, hgain⟩ := of_decide_eq_true hworth
  exact decide_eq_true ⟨hmargin.trans_le h, hgain.trans (sub_le_sub_right h inc)⟩

/-- Under a margin of at least one the gate lets hotter experts through only. -/
theorem lt_of_ktEnergyWorthMoving {ch inc margin minGainMean : α} [IsStrictOrderedRing α] (hmargin : 1 ≤ margin)
    (hinc : 0 ≤ inc) (hworth : ktEnergyWorthMoving e ch inc margin minGainMean = true) : inc < ch := by
  unfold ktEnergyWorthMoving at hworth
  have hlt := (of_decide_eq_true hworth).1
  have hscaled : inc ≤ margin * inc := le_mul_of_one_le_left hinc hmargin
  exact (hscaled.trans_lt (lt_add_of_pos_right _ (eMinus_pos 12))).trans hlt

/-- A layer on which some expert passes the gate asks for a move. -/
theorem energyPromotions_ne_nil [IsStrictOrderedRing α] (hquiet : ¬ EnergyQuiet env m e) :
    (energyPromotions env m e i : List (Promotion E L α)) ≠ [] := by
  unfold EnergyQuiet at hquiet
  push Not at hquiet
  obtain ⟨x, hx, w, hw, hweakest, hworth⟩ := hquiet
  rw [Bool.ne_false_iff] at hworth
  have hxssd : x ∈ whereTrue (m.gpuExpertsMask ∪ m.ramExpertsMask)ᶜ := mem_whereTrue.mpr (Finset.mem_compl.mpr hx)
  have hwram : w ∈ whereTrue m.ramExpertsMask := mem_whereTrue.mpr hw
  unfold energyPromotions
  cases hssd : (whereTrue (m.gpuExpertsMask ∪ m.ramExpertsMask)ᶜ).argmax e with
  | none => exact absurd (List.argmax_eq_none.mp hssd ▸ hxssd) List.not_mem_nil
  | some bestSsd =>
    cases hram : (whereTrue m.ramExpertsMask).argmin e with
    | none => exact absurd (List.argmin_eq_none.mp hram ▸ hwram) List.not_mem_nil
    | some worstRam =>
      have hbest : e x ≤ e bestSsd := List.le_of_mem_argmax hxssd hssd
      have hworst : e worstRam = e w :=
        le_antisymm (List.le_of_mem_argmin hwram hram) (hweakest _ (mem_whereTrue.mp (List.argmin_mem hram)))
      dsimp only
      rw [hworst, if_pos (ktEnergyWorthMoving_mono hbest hworth)]
      exact List.cons_ne_nil _ _

/-- The decision of a layer raises on an empty GPU set only, and only where it looks at it. -/
theorem energyLayer_ne_none (hgpu : env.ktEnergyGpu = true → m.gpuExpertsMask.Nonempty) :
    energyLayer env m e i ≠ none := by
  unfold energyLayer
  split
  · exact Option.some_ne_none _
  · next hsome =>
    rw [ne_eq, Option.map_eq_none_iff]
    unfold energyCandidates
    by_cases hon : env.ktEnergyGpu = true
    · rw [if_pos hon]
      obtain ⟨g, hg⟩ := hgpu hon
      obtain ⟨w, hw⟩ := Finset.nonempty_iff_ne_empty.mpr fun hram => hsome (.inr hram)
      split
      · split
        · exact Option.some_ne_none _
        · exact Option.some_ne_none _
      · rename_i hempty
        cases hworst : (whereTrue m.gpuExpertsMask).argmin e with
        | none => exact absurd (List.argmin_eq_none.mp hworst ▸ mem_whereTrue.mpr hg) List.not_mem_nil
        | some worstGpu =>
          cases hbest : (whereTrue m.ramExpertsMask).argmax e with
          | none => exact absurd (List.argmax_eq_none.mp hbest ▸ mem_whereTrue.mpr hw) List.not_mem_nil
          | some bestRam => exact absurd hbest (hempty worstGpu bestRam hworst)
    · rw [if_neg hon]
      exact Option.some_ne_none _

/-- A decision over layers that do not raise, one of which asks for a move, is to make a move if the budget allows
one. -/
theorem exists_energyPlan_cons {methods : Fin L → Method E} {allE : Fin L → Fin E → α}
    (hmoves : 0 < env.ktEnergyMaxMoves) (hall : ∀ i, energyLayer env (methods i) (allE i) i ≠ none)
    (hasked : (energyPromotions env (methods i) (allE i) i : List (Promotion E L α)) ≠ []) :
    ∃ p ps layers, energyPlan env methods allE = some (p :: ps, layers) := by
  have hraise : ¬ ((List.finRange L).any fun i => (energyLayer env (methods i) (allE i) i).isNone) = true := by
    rw [List.any_eq_true]
    rintro ⟨j, -, hj⟩
    exact hall j (Option.isNone_iff_eq_none.mp hj)
  obtain ⟨⟨ps, gs⟩, hi⟩ := Option.ne_none_iff_exists'.mp (hall i)
  obtain ⟨p, hp⟩ := List.exists_mem_of_ne_nil _ hasked
  rw [← energyLayer_promotions_eq hi] at hp
  have hfound : (ps, gs) ∈ (List.finRange L).filterMap fun i => energyLayer env (methods i) (allE i) i :=
    List.mem_filterMap.mpr ⟨i, List.mem_finRange i, hi⟩
  have hsorted : ((((List.finRange L).filterMap fun i => energyLayer env (methods i) (allE i) i).flatMap
      Prod.fst).insertionSort fun x y => y.gain ≤ x.gain) ≠ [] :=
    List.ne_nil_of_mem ((List.mem_insertionSort _).mpr (List.mem_flatMap.mpr ⟨(ps, gs), hfound, hp⟩))
  obtain ⟨q, qs, hslice⟩ := List.exists_cons_of_ne_nil (sliceTo_ne_nil hmoves hsorted)
  unfold energyPlan
  rw [if_neg hraise]
  exact ⟨q, qs, _, congrArg (fun moves => some (moves, _)) hslice⟩

/-- Without a budget there are no moves. -/
theorem energyTodo_noBudget {s : Server E L α} {allE : Fin L → Fin E → α} (hmoves : env.ktEnergyMaxMoves = 0) :
    (energyTodo env s allE).1 = [] := by
  unfold energyTodo energyPlan
  split
  · split
    · rfl
    · dsimp only [Option.getD_some]
      rw [hmoves]
      rfl
  · rfl

end Gate

/-! ## One tick -/

section Tick

variable {env : Env α} {q : Quant} {srt : Argsort (Fin E) α} {stores : Fin L → Finset (Fin E)}
  {ev : EnergyEvent E L α} {s : Server E L α}

variable [IsStrictOrderedRing α] in
theorem moved_ramTicked (hmargin : 1 ≤ env.ktEnergyMargin) (h0 : ∀ i x, 0 ≤ ev.allE i x) (i : Fin L) :
    RamTicked (ev.allE i) (s.methods i).gpuExpertsMask (s.methods i).ramExpertsMask
      (s.moved env ev i).ramExpertsMask := by
  rcases moved_cases env ev s i with ⟨p, hp, rfl⟩ | hstay
  · obtain ⟨-, hpromote, hevict, hworth⟩ := mem_energyPromotions (mem_energyTodo hp)
    rw [(moved_of_mem hp).ramMask]
    split
    · exact .kept
    · split
      · exact .lost p.evict hevict
      · exact .moved p.promote p.evict hpromote hevict (lt_of_ktEnergyWorthMoving hmargin (h0 _ _) hworth)
  · rw [hstay]
    exact .kept

theorem gpuMask_cases (i : Fin L) :
    ((ktEnergyOnDecodeStep env q srt stores s ev).methods i).gpuExpertsMask = (s.methods i).gpuExpertsMask ∨
      ((ktEnergyOnDecodeStep env q srt stores s ev).methods i).gpuExpertsMask =
        hottest srt (ev.allE i) (s.methods i).numGpuExperts
          ((s.methods i).gpuExpertsMask ∪ (s.moved env ev i).ramExpertsMask) := by
  have htables : (s.methods i).SameTables (s.moved env ev i) := moved_sameTables i
  rw [(ktEnergyOnDecodeStep_spec i).gpuMask, ← htables.mask, ← htables.numGpuExperts]
  split
  · exact restagedGpu_cases q (s.moved env ev i)
  · exact Or.inl rfl

/-- A restage keeps the size of the GPU set. -/
theorem card_gpuMask (i : Fin L) :
    ((ktEnergyOnDecodeStep env q srt stores s ev).methods i).gpuExpertsMask.card =
      (s.methods i).gpuExpertsMask.card := by
  have htables : (s.methods i).SameTables (s.moved env ev i) := moved_sameTables i
  rw [(ktEnergyOnDecodeStep_spec i).gpuMask, ← htables.mask]
  split
  · unfold restagedGpu
    split
    · rfl
    · rename_i hsel
      push Not at hsel
      rw [List.toFinset_card_of_nodup energyGpuSelect_nodup, hsel.2]
  · rfl

end Tick

/-! ## Runs -/

/-- The GPU and the RAM mask of every layer. -/
def Server.masks (s : Server E L α) (i : Fin L) : Finset (Fin E) × Finset (Fin E) :=
  ((s.methods i).gpuExpertsMask, (s.methods i).ramExpertsMask)

section Run

variable {env : Env α} {q : Quant} {srt : Argsort (Fin E) α} {stores : ℕ → Fin L → Finset (Fin E)}
  {evs : ℕ → EnergyEvent E L α} {s : Server E L α} {e : Fin L → Fin E → α}

variable (env q srt stores evs s) in
theorem energySteps_ramMask_succ (t : ℕ) (i : Fin L) :
    ((energySteps env q srt stores evs s (t + 1)).methods i).ramExpertsMask =
      ((energySteps env q srt stores evs s t).moved env (evs t) i).ramExpertsMask :=
  (ktEnergyOnDecodeStep_spec i).ram.ramMask

theorem energySteps_numGpuExperts (t : ℕ) (i : Fin L) :
    ((energySteps env q srt stores evs s t).methods i).numGpuExperts = (s.methods i).numGpuExperts := by
  induction t with
  | zero => rfl
  | succ t ih => exact (ktEnergyOnDecodeStep_spec i).numGpuExperts.trans ih

variable (env q srt stores evs s) in
theorem energySteps_gpuMask_succ (t : ℕ) (i : Fin L) :
    ((energySteps env q srt stores evs s (t + 1)).methods i).gpuExpertsMask =
        ((energySteps env q srt stores evs s t).methods i).gpuExpertsMask ∨
      ((energySteps env q srt stores evs s (t + 1)).methods i).gpuExpertsMask =
        hottest srt ((evs t).allE i) (s.methods i).numGpuExperts
          (((energySteps env q srt stores evs s t).methods i).gpuExpertsMask ∪
            ((energySteps env q srt stores evs s (t + 1)).methods i).ramExpertsMask) := by
  rw [energySteps_ramMask_succ, ← energySteps_numGpuExperts t i]
  exact gpuMask_cases i

theorem card_energySteps_gpuMask (t : ℕ) (i : Fin L) :
    ((energySteps env q srt stores evs s t).methods i).gpuExpertsMask.card = (s.methods i).gpuExpertsMask.card := by
  induction t with
  | zero => rfl
  | succ t ih => exact (card_gpuMask i).trans ih

theorem energySteps_energyStep (hon : env.ktEnergy = true) (hL : L ≠ 0) (t : ℕ) :
    (energySteps env q srt stores evs s t).energyStep = s.energyStep + t := by
  induction t with
  | zero => rfl
  | succ t ih =>
    show (if env.ktEnergy && decide (L ≠ 0) then (energySteps env q srt stores evs s t).energyStep + 1
      else (energySteps env q srt stores evs s t).energyStep) = _
    rw [if_pos (by simp [hon, hL]), ih, Nat.add_assoc]

/-- The tick comes due again and again. -/
theorem exists_energyDue (hon : env.ktEnergy = true) (hperiod : 0 < env.ktEnergyPeriod) (hL : L ≠ 0) (t : ℕ) :
    ∃ t', t ≤ t' ∧ energyDue env L (energySteps env q srt stores evs s t').energyStep = true := by
  obtain ⟨period, hnat⟩ := Int.eq_ofNat_of_zero_le hperiod.le
  have hpos : 1 ≤ period := by omega
  have hle : s.energyStep + t + 1 ≤ period * (s.energyStep + t + 1) := Nat.le_mul_of_pos_left _ hpos
  refine ⟨period * (s.energyStep + t + 1) - s.energyStep - 1, by omega, ?_⟩
  have hstep : ((s.energyStep + (period * (s.energyStep + t + 1) - s.energyStep - 1) : ℕ) : ℤ) + 1 =
      env.ktEnergyPeriod * (s.energyStep + t + 1 : ℕ) := by
    rw [hnat, ← Nat.cast_mul]
    omega
  unfold energyDue
  rw [energySteps_energyStep hon hL, hstep, Int.mul_emod_right]
  simp [hon, hperiod, hL]

/-- A move made at a tick shows in the masks. -/
theorem masks_ne_of_served {t : ℕ} {p : Promotion E L α}
    (hserved : EnergyServed env (energySteps env q srt stores evs s) evs)
    (hp : p ∈ (energyTodo env (energySteps env q srt stores evs s t) (evs t).allE).1)
    (hready : (evs t).ready p.layer p.promote = true) :
    (energySteps env q srt stores evs s (t + 1)).masks ≠ (energySteps env q srt stores evs s t).masks := by
  intro hsame
  have hram : ((energySteps env q srt stores evs s (t + 1)).methods p.layer).ramExpertsMask =
      ((energySteps env q srt stores evs s t).methods p.layer).ramExpertsMask :=
    congrArg Prod.snd (congrFun hsame p.layer)
  have hmoved := (moved_of_mem hp).ramMask
  rw [if_neg fun h => h.2 hready, if_neg fun h => h.2.2 ⟨hserved.evict t _ _, hserved.stage t _ _⟩] at hmoved
  have hpromoted : p.promote ∈ ((energySteps env q srt stores evs s (t + 1)).methods p.layer).ramExpertsMask := by
    rw [energySteps_ramMask_succ, hmoved]
    exact Finset.mem_insert_self _ _
  rw [hram] at hpromoted
  exact (energyTodo_promotions.2 p hp).1 (Finset.mem_union_right _ hpromoted)

variable (env q srt stores evs s) in
/-- Without a budget for moves host RAM stays as it is, and the tiers take nothing in. -/
theorem tiers_of_noBudget (hmoves : env.ktEnergyMaxMoves = 0) (t : ℕ) (i : Fin L) :
    ((energySteps env q srt stores evs s t).methods i).ramExpertsMask = (s.methods i).ramExpertsMask ∧
      ((energySteps env q srt stores evs s t).methods i).gpuExpertsMask ⊆
        (s.methods i).gpuExpertsMask ∪ (s.methods i).ramExpertsMask := by
  induction t with
  | zero => exact ⟨rfl, Finset.subset_union_left⟩
  | succ t ih =>
    have hnone : (energyTodo env (energySteps env q srt stores evs s t) (evs t).allE).1 = [] :=
      energyTodo_noBudget hmoves
    have hstay : (energySteps env q srt stores evs s t).moved env (evs t) i =
        (energySteps env q srt stores evs s t).methods i :=
      moved_of_notMem fun p hp => absurd (hnone ▸ hp) List.not_mem_nil
    have hram := energySteps_ramMask_succ env q srt stores evs s t i
    refine ⟨(hram.trans (congrArg Method.ramExpertsMask hstay)).trans ih.1, ?_⟩
    rcases energySteps_gpuMask_succ env q srt stores evs s t i with hgpu | hgpu
    · exact hgpu.subset.trans ih.2
    · refine (hgpu.subset.trans hottest_subset).trans (Finset.union_subset ih.2 ?_)
      rw [hram, hstay, ih.1]
      exact Finset.subset_union_right

/-- Without a budget for moves a layer comes to be quiet only if it was. -/
theorem energyQuiet_of_noBudget (hmoves : env.ktEnergyMaxMoves = 0) {e : Fin E → α} {t : ℕ} {i : Fin L}
    (h : EnergyQuiet env ((energySteps env q srt stores evs s t).methods i) e) : EnergyQuiet env (s.methods i) e := by
  obtain ⟨hram, hgpu⟩ := tiers_of_noBudget env q srt stores evs s hmoves t i
  intro x hx w hw hweakest
  refine h x (fun hx' => hx ?_) w (hram.symm ▸ hw) fun y hy => hweakest y (hram ▸ hy)
  rcases Finset.mem_union.mp hx' with hmem | hmem
  · exact hgpu hmem
  · exact Finset.mem_union_right _ (hram ▸ hmem)

variable [IsStrictOrderedRing α]

variable (q srt stores s) in
/-- **Rest.** On fixed energies and under a margin of at least one the masks stop changing, whatever the budgets,
whatever is ready and however the calls into the store end. -/
theorem energySteps_settle (hmargin : 1 ≤ env.ktEnergyMargin) (h0 : ∀ i x, 0 ≤ e i x) (hall : ∀ t, (evs t).allE = e) :
    ∃ T, ∀ t, T ≤ t →
      (energySteps env q srt stores evs s t).masks = (energySteps env q srt stores evs s T).masks := by
  refine exists_seq_settled (fun t => (energySteps env q srt stores evs s t).masks)
    (fun r i => tierPotential srt (e i) (s.methods i).numGpuExperts (r i).1 (r i).2) fun t hmove => ?_
  have hlayer : ∀ i, (energySteps env q srt stores evs s (t + 1)).masks i ≠
      (energySteps env q srt stores evs s t).masks i →
      tierPotential srt (e i) (s.methods i).numGpuExperts ((energySteps env q srt stores evs s t).masks i).1
          ((energySteps env q srt stores evs s t).masks i).2 <
        tierPotential srt (e i) (s.methods i).numGpuExperts ((energySteps env q srt stores evs s (t + 1)).masks i).1
          ((energySteps env q srt stores evs s (t + 1)).masks i).2 := by
    intro i hne
    rw [← hall t] at h0 ⊢
    refine masks_potential_lt ?_ (energySteps_gpuMask_succ env q srt stores evs s t i) hne
    show RamTicked _ _ _ ((energySteps env q srt stores evs s (t + 1)).methods i).ramExpertsMask
    rw [energySteps_ramMask_succ]
    exact moved_ramTicked hmargin h0 i
  refine Pi.lt_def.mpr ⟨fun i => ?_, ?_⟩
  · by_cases hne : (energySteps env q srt stores evs s (t + 1)).masks i = (energySteps env q srt stores evs s t).masks i
    · show tierPotential _ _ _ _ _ ≤ tierPotential _ _ _ _ _
      rw [hne]
    · exact (hlayer i hne).le
  · obtain ⟨i, hne⟩ := Function.ne_iff.mp hmove
    exact ⟨i, hlayer i hne⟩

variable (env q srt stores s) in
/-- **The energy controller comes to rest.** On fixed energies and under a margin of at least one only finitely many
ticks change a mask; and if the budget allows a move, and no GPU set is empty where the GPU is restaged, no expert on
disk is worth moving in the state reached. -/
theorem energy_settles (hon : env.ktEnergy = true) (hperiod : 0 < env.ktEnergyPeriod)
    (hmargin : 1 ≤ env.ktEnergyMargin) (h0 : ∀ i x, 0 ≤ e i x) (hall : ∀ t, (evs t).allE = e)
    (hserved : EnergyServed env (energySteps env q srt stores evs s) evs) :
    ∃ T, ∀ t, T ≤ t →
      (energySteps env q srt stores evs s t).masks = (energySteps env q srt stores evs s T).masks ∧
      (0 < env.ktEnergyMaxMoves → (env.ktEnergyGpu = true → ∀ i, (s.methods i).gpuExpertsMask.Nonempty) →
        ∀ i, EnergyQuiet env ((energySteps env q srt stores evs s t).methods i) (e i)) := by
  obtain ⟨T, hT⟩ := energySteps_settle q srt stores s hmargin h0 hall
  refine ⟨T, fun t ht => ⟨hT t ht, fun hmoves hgpu i => ?_⟩⟩
  by_contra hquiet
  have hL : L ≠ 0 := fun h => (h ▸ i).elim0
  have hraise : ∀ j, energyLayer env ((energySteps env q srt stores evs s t).methods j) (e j) j ≠ none := by
    refine fun j => energyLayer_ne_none fun hrestage => Finset.card_pos.mp ?_
    rw [card_energySteps_gpuMask]
    exact Finset.card_pos.mpr (hgpu hrestage j)
  obtain ⟨p, ps, layers, hplan⟩ := exists_energyPlan_cons hmoves hraise (energyPromotions_ne_nil hquiet)
  have hasked : ∀ t', t ≤ t' → energyDue env L (energySteps env q srt stores evs s t').energyStep = true →
      p ∈ (energyTodo env (energySteps env q srt stores evs s t') (evs t').allE).1 := by
    intro t' ht' hdue
    have hsame : (energySteps env q srt stores evs s t').masks = (energySteps env q srt stores evs s t).masks :=
      (hT t' (ht.trans ht')).trans (hT t ht).symm
    unfold energyTodo
    rw [if_pos hdue, hall t', energyPlan_congr (fun j => congrArg Prod.fst (congrFun hsame j))
      (fun j => congrArg Prod.snd (congrFun hsame j)), hplan]
    exact List.mem_cons_self
  obtain ⟨t', ht', hdue, hready⟩ := hserved.ready t p (exists_energyDue hon hperiod hL t) hasked
  refine masks_ne_of_served hserved (hasked t' ht' hdue) hready ?_
  exact (hT (t' + 1) (ht.trans (ht'.trans (Nat.le_succ t')))).trans (hT t' (ht.trans ht')).symm

end Run

/-- A tick that finds everything ready and whose calls return. -/
def steadyEvent (e : Fin L → Fin E → α) : EnergyEvent E L α := ⟨e, fun _ _ => true, fun _ _ => .ok, fun _ _ => .ok⟩

theorem energyServed_steady {env : Env α} {run : ℕ → Server E L α} {e : Fin L → Fin E → α} :
    EnergyServed env run fun _ => steadyEvent e where
  evict _ _ _ := rfl
  stage _ _ _ := rfl
  ready _ _ hdue _ := hdue.imp fun _ h => ⟨h.1, h.2, rfl⟩

/-- One expert on the GPU, one in host RAM and a hot one on disk. -/
theorem energy_settles_three :
    ∃ T, ∀ t, T ≤ t → EnergyQuiet ({ ktRamExperts := 1, ktEnergy := true } : Env ℚ)
      ((energySteps { ktRamExperts := 1, ktEnergy := true } .bf16 Argsort.stable (fun _ _ => ∅)
        (fun _ => steadyEvent fun _ => ![1, 0, 5])
        (Server.boot { ktRamExperts := 1, ktEnergy := true } true (fun _ => none) (fun _ => {0}) 0 : Server 3 1 ℚ)
        t).methods 0) ![1, 0, 5] := by
  obtain ⟨T, hT⟩ := energy_settles { ktRamExperts := 1, ktEnergy := true } .bf16 Argsort.stable (fun _ _ => ∅)
    (Server.boot { ktRamExperts := 1, ktEnergy := true } true (fun _ => none) (fun _ => {0}) 0 : Server 3 1 ℚ)
    (e := fun _ => ![1, 0, 5]) rfl (by norm_num) (by norm_num) (by decide +kernel) (fun _ => rfl) energyServed_steady
  exact ⟨T, fun t ht => (hT t ht).2 (by norm_num) (fun _ _ => ⟨0, Finset.mem_singleton_self 0⟩) 0⟩

/-- With a budget of no moves the hot expert stays on disk for good. -/
theorem energy_unsettled_noBudget :
    ¬ ∀ (env : Env ℚ) (s : Server 3 1 ℚ) (e : Fin 1 → Fin 3 → ℚ) (evs : ℕ → EnergyEvent 3 1 ℚ),
      env.ktEnergy = true → 0 < env.ktEnergyPeriod → 1 ≤ env.ktEnergyMargin → 1 ≤ env.ktEnergyGpuMargin →
      0 ≤ env.ktEnergyMinGainMean → 0 ≤ env.ktEnergyGpuMinGainMean → 0 ≤ env.ktEnergyMaxMoves →
      0 ≤ env.ktEnergyMaxGpuLayers → (∀ i x, 0 ≤ e i x) →
      (∀ i, Disjoint (s.methods i).gpuExpertsMask (s.methods i).ramExpertsMask ∧
        (s.methods i).gpuExpertsMask.Nonempty ∧ (s.methods i).ramExpertsMask.Nonempty) →
      (∀ t, (evs t).allE = e) →
      EnergyServed env (energySteps env .bf16 Argsort.stable (fun _ _ => ∅) evs s) evs →
      ∃ T, ∀ t, T ≤ t →
        (energySteps env .bf16 Argsort.stable (fun _ _ => ∅) evs s t).masks =
          (energySteps env .bf16 Argsort.stable (fun _ _ => ∅) evs s T).masks ∧
        ∀ i, EnergyQuiet env ((energySteps env .bf16 Argsort.stable (fun _ _ => ∅) evs s t).methods i) (e i) := by
  intro h
  obtain ⟨T, hT⟩ := h { ktRamExperts := 1, ktEnergy := true, ktEnergyMaxMoves := 0 }
    (Server.boot { ktRamExperts := 1, ktEnergy := true, ktEnergyMaxMoves := 0 } true (fun _ => none) (fun _ => {0}) 0)
    (fun _ => ![1, 0, 5]) (fun _ => steadyEvent fun _ => ![1, 0, 5]) rfl (by norm_num) (by norm_num) (by norm_num)
    (by norm_num) (by norm_num) le_rfl (by norm_num) (by decide +kernel) (by decide) (fun _ => rfl) energyServed_steady
  have hquiet := energyQuiet_of_noBudget rfl ((hT T le_rfl).2 0)
  have hstuck := hquiet 2 (by decide) 1 (by decide) (by decide +kernel)
  exact absurd hstuck (by decide +kernel)

end ExpertServe
