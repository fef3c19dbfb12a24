import ExpertServe.Tick.Homes

/-!
# The RAM budget

A tier tick takes the size of the RAM tier from the current mask and masks a failed promotion out again; an energy
move masks the evicted expert out before the calls that may raise. Neither controller gives a lost place back, so the
size of the tier only ever falls.

* `LosesNone`: no call of the tick into the CPU store costs the tier a place;
* `ramSizes_step`: one tick never grows a tier, and keeps the sizes exactly when it loses none;
* `ramBudget_kept_iff`: after any run, and however many ticks without a failure follow, the tiers have their sizes of
  boot exactly when no tick of the run lost a place.
-/

namespace ExpertServe

open Lib

variable {E L : ℕ} {α : Type*} [Field α] [LinearOrder α]

/-- A tick of one of the two controllers that move experts between disk and host RAM. -/
inductive RamTick (E L : ℕ) (α : Type*) where
  | tier (i : Fin L) (ev : TierEvent E α)
  | energy (ev : EnergyEvent E L α)

def RamTick.toTick : RamTick E L α → Tick E L α
  | .tier i ev => .tier i ev
  | .energy ev => .energy ev

/-- No call of the tick into the CPU store raises. -/
def RamTick.Calm : RamTick E L α → Prop
  | .tier _ ev => ∀ e, ev.evict e = .ok ∧ ev.promote e = .ok
  | .energy ev => ∀ i e, ev.evict i e = .ok ∧ ev.stage i e = .ok

/-- One tick on the rank that owns the store. -/
def Server.ramTick (env : Env α) (q : Quant) (srt : Argsort (Fin E) α) (s : Server E L α) (t : RamTick E L α) :
    Server E L α := s.tick env q srt t.toTick

/-- How many experts each layer has in host RAM. -/
def Server.ramSizes (s : Server E L α) : Fin L → ℕ := fun i => (s.methods i).ramExpertsMask.card

/-- No promotion a tier tick attempts raises, if its GPU copy lets it come to that; no move an energy tick attempts
raises. -/
def LosesNone (env : Env α) (q : Quant) (srt : Argsort (Fin E) α) (s : Server E L α) : RamTick E L α → Prop
  | .tier i ev =>
    (q = .mxfp4 ∧ (tierPlan env srt ev (s.methods i)).1 ≠ (s.methods i).gpuExpertsMask) ∨
      ∀ e ∈ (tierPlan env srt ev (s.methods i)).2, e ∉ (s.methods i).ramExpertsMask → ev.promote e = .ok
  | .energy ev => ∀ p ∈ (energyTodo env s ev.allE).1, ev.ready p.layer p.promote = true →
      ev.evict p.layer p.evict = .ok ∧ ev.stage p.layer p.promote = .ok

/-- What holds of a layer of the owning rank between ticks, disjoint tiers or not. -/
structure Budgeted (env : Env α) (m : Method E) : Prop where
  tabled : ∃ t, m.Tabled t
  wired : m.Wired env
  tpRank : m.tpRank = 0
  fits : m.gpuExpertsMask.card + m.ramExpertsMask.card ≤ E

/-! ## One layer -/

section Layer

variable {env : Env α} {q : Quant} {srt : Argsort (Fin E) α} {m : Method E}

variable (q srt) in
/-- A tier tick. -/
theorem ktTierUpdateLayer_budget (ev : TierEvent E α) (hm : Budgeted env m) :
    Budgeted env (ktTierUpdateLayer env q srt m ev) ∧
      (ktTierUpdateLayer env q srt m ev).ramExpertsMask.card ≤ m.ramExpertsMask.card ∧
      ((ktTierUpdateLayer env q srt m ev).ramExpertsMask.card = m.ramExpertsMask.card ↔
        (q = .mxfp4 ∧ (tierPlan env srt ev m).1 ≠ m.gpuExpertsMask) ∨
          ∀ e ∈ (tierPlan env srt ev m).2, e ∉ m.ramExpertsMask → ev.promote e = .ok) := by
  have h : TierSet env q ev m.store (whereTrue (tierPlan env srt ev m).1) (whereTrue (tierPlan env srt ev m).2) m
      (ktTierUpdateLayer env q srt m ev) := tierApply_tabled hm.tabled hm.wired (whereTrue_nodup _)
  have hgpu : (ktTierUpdateLayer env q srt m ev).gpuExpertsMask.card ≤ m.gpuExpertsMask.card := by
    rw [h.gpuMask, whereTrue_toFinset]
    split
    · exact le_rfl
    · exact card_tierPlan_fst_le
  have hplan : (tierPlan env srt ev m).2.card = m.ramExpertsMask.card := card_tierPlan_snd_of_le hm.fits
  have hram := h.ramMask
  rw [whereTrue_toFinset, whereTrue_toFinset, if_pos hm.tpRank] at hram
  have hsize : (ktTierUpdateLayer env q srt m ev).ramExpertsMask.card ≤ m.ramExpertsMask.card ∧
      ((ktTierUpdateLayer env q srt m ev).ramExpertsMask.card = m.ramExpertsMask.card ↔
        (q = .mxfp4 ∧ (tierPlan env srt ev m).1 ≠ m.gpuExpertsMask) ∨
          ∀ e ∈ (tierPlan env srt ev m).2, e ∉ m.ramExpertsMask → ev.promote e = .ok) := by
    by_cases hstuck : q = .mxfp4 ∧ (tierPlan env srt ev m).1 ≠ m.gpuExpertsMask
    · rw [hram, if_pos hstuck]
      exact ⟨le_rfl, fun _ => Or.inl hstuck, fun _ => rfl⟩
    · rw [hram, if_neg hstuck, ← hplan]
      unfold advertised
      refine ⟨Finset.card_filter_le _ _, ?_⟩
      rw [Finset.card_filter_eq_iff]
      exact ⟨Or.inr, fun h => h.resolve_left hstuck⟩
  have hfits := hm.fits
  have hle := hsize.1
  exact ⟨⟨h.tabled, h.wired, h.tpRank.trans hm.tpRank, by omega⟩, hsize⟩

variable {s : Server E L α} {i : Fin L} {ev : EnergyEvent E L α}

omit [LinearOrder α] in
/-- A move on a layer costs it a place exactly when it is attempted and raises. -/
theorem EnergyMoved.card_ramMask {m' : Method E} {ready : Bool} {evict stage : Outcome} {promoteE evictE : Fin E}
    (h : EnergyMoved env ready evict stage promoteE evictE m m') (hm : Budgeted env m)
    (hpromote : promoteE ∉ m.ramExpertsMask) (hevict : evictE ∈ m.ramExpertsMask) :
    m'.ramExpertsMask.card ≤ m.ramExpertsMask.card ∧
      (m'.ramExpertsMask.card = m.ramExpertsMask.card ↔ (ready = true → evict = .ok ∧ stage = .ok)) := by
  have herase : (m.ramExpertsMask.erase evictE).card + 1 = m.ramExpertsMask.card := Finset.card_erase_add_one hevict
  have hinsert : (insert promoteE (m.ramExpertsMask.erase evictE)).card = m.ramExpertsMask.card := by
    rw [Finset.card_insert_of_notMem fun h => hpromote (Finset.mem_of_mem_erase h), herase]
  rw [h.ramMask]
  by_cases hready : ready = true
  · rw [if_neg fun h => h.2 hready]
    by_cases hok : evict = .ok ∧ stage = .ok
    · rw [if_neg fun h => h.2.2 hok, hinsert]
      exact ⟨le_rfl, fun _ _ => hok, fun _ => rfl⟩
    · rw [if_pos ⟨hm.tpRank, hm.wired.owner.mpr hm.tpRank, hok⟩]
      refine ⟨by omega, fun h => absurd h (by omega), fun h => absurd (h hready) hok⟩
  · rw [if_pos ⟨hm.tpRank, hready⟩]
    exact ⟨le_rfl, fun _ h => absurd h hready, fun _ => rfl⟩

/-- The moves of an energy tick, seen from one layer. -/
theorem moved_budget (hm : Budgeted env (s.methods i)) :
    Budgeted env (s.moved env ev i) ∧
      (s.moved env ev i).ramExpertsMask.card ≤ (s.methods i).ramExpertsMask.card ∧
      ((s.moved env ev i).ramExpertsMask.card = (s.methods i).ramExpertsMask.card ↔
        ∀ p ∈ (energyTodo env s ev.allE).1, p.layer = i → ev.ready p.layer p.promote = true →
          ev.evict p.layer p.evict = .ok ∧ ev.stage p.layer p.promote = .ok) := by
  by_cases hp : ∃ p ∈ (energyTodo env s ev.allE).1, p.layer = i
  · obtain ⟨p, hp, rfl⟩ := hp
    have h := moved_of_mem hp
    have hnodup : ((energyTodo env s ev.allE).1.map Promotion.layer).Nodup := energyTodo_promotions.1
    obtain ⟨hpromote, hevict⟩ := energyTodo_promotions.2 p hp
    obtain ⟨hle, hiff⟩ := h.card_ramMask hm (fun h => hpromote (Finset.mem_union_right _ h)) hevict
    have hfits := hm.fits
    refine ⟨⟨hm.tabled.imp fun t => h.tables.tabled, h.wired hm.wired, h.tpRank.trans hm.tpRank, ?_⟩, hle, ?_⟩
    · rw [h.tables.mask]
      omega
    · rw [hiff]
      refine ⟨fun hok p' hp' hlayer => ?_, fun hall => hall p hp rfl⟩
      -- the layer has one move only
      obtain rfl := List.inj_on_of_nodup_map hnodup hp' hp hlayer
      exact hok
  · push Not at hp
    rw [moved_of_notMem hp]
    exact ⟨hm, le_rfl, fun _ p hp' hlayer => absurd hlayer (hp p hp'), fun _ => rfl⟩

omit [Field α] in
theorem card_restagedGpu {e : Fin E → α} : (restagedGpu q srt e m).card = m.gpuExpertsMask.card := by
  unfold restagedGpu
  split
  · rfl
  · next h =>
    rw [List.toFinset_card_of_nodup energyGpuSelect_nodup]
    by_contra hne
    exact h (Or.inr hne)

/-- An energy tick, seen from one layer: a restage leaves the RAM tier as the moves left it. -/
theorem ktEnergyOnDecodeStep_budget (stores : Fin L → Finset (Fin E)) (hm : Budgeted env (s.methods i)) :
    Budgeted env ((ktEnergyOnDecodeStep env q srt stores s ev).methods i) ∧
      ((ktEnergyOnDecodeStep env q srt stores s ev).methods i).ramExpertsMask = (s.moved env ev i).ramExpertsMask := by
  have hspec : EnergyTicked env q srt ev s i ((ktEnergyOnDecodeStep env q srt stores s ev).methods i) :=
    ktEnergyOnDecodeStep_spec i
  have hmoved : Budgeted env (s.moved env ev i) := (moved_budget hm).1
  refine ⟨⟨ktEnergyOnDecodeStep_tabled i hm.tabled, hspec.wired hmoved.wired, hspec.ram.tpRank.trans hmoved.tpRank, ?_⟩,
    hspec.ram.ramMask⟩
  have hgpu : ((ktEnergyOnDecodeStep env q srt stores s ev).methods i).gpuExpertsMask.card =
      (s.moved env ev i).gpuExpertsMask.card := by
    rw [hspec.gpuMask]
    split
    · exact card_restagedGpu
    · rw [(moved_sameTables i).mask]
  rw [hgpu, hspec.ram.ramMask]
  exact hmoved.fits

end Layer

/-! ## Runs -/

section Runs

variable {env : Env α} {q : Quant} {srt : Argsort (Fin E) α} {s : Server E L α}

variable (q srt) in
/-- **One tick** leaves every layer in order, grows no tier, and keeps their sizes exactly when it loses none. -/
theorem ramSizes_step (t : RamTick E L α) (hs : ∀ i, Budgeted env (s.methods i)) :
    (∀ i, Budgeted env ((s.ramTick env q srt t).methods i)) ∧ (s.ramTick env q srt t).ramSizes ≤ s.ramSizes ∧
      ((s.ramTick env q srt t).ramSizes = s.ramSizes ↔ LosesNone env q srt s t) := by
  cases t with
  | tier i ev =>
    obtain ⟨hok, hle, hiff⟩ := ktTierUpdateLayer_budget q srt ev (hs i)
    refine ⟨(Server.forall_setLayer_iff (fun _ m => Budgeted env m) i _ hs).mpr hok, fun j => ?_, ?_⟩
    · exact (Server.forall_setLayer_iff (fun j m => m.ramExpertsMask.card ≤ (s.methods j).ramExpertsMask.card) i _
        fun _ => le_rfl).mpr hle j
    · rw [funext_iff]
      exact (Server.forall_setLayer_iff (fun j m => m.ramExpertsMask.card = (s.methods j).ramExpertsMask.card) i _
        fun _ => rfl).trans hiff
  | energy ev =>
    have hlayer : ∀ i, Budgeted env ((s.ramTick env q srt (.energy ev)).methods i) ∧
        ((s.ramTick env q srt (.energy ev)).methods i).ramExpertsMask = (s.moved env ev i).ramExpertsMask :=
      fun i => ktEnergyOnDecodeStep_budget _ (hs i)
    have hsizes : (s.ramTick env q srt (.energy ev)).ramSizes = fun i => (s.moved env ev i).ramExpertsMask.card :=
      funext fun i => congrArg Finset.card (hlayer i).2
    rw [hsizes]
    refine ⟨fun i => (hlayer i).1, fun i => (moved_budget (hs i)).2.1, ?_⟩
    rw [funext_iff]
    constructor
    · intro h p hp
      exact (moved_budget (hs p.layer)).2.2.mp (h p.layer) p hp rfl
    · intro h i
      exact (moved_budget (hs i)).2.2.mpr fun p hp _ => h p hp

theorem RamTick.Calm.losesNone {t : RamTick E L α} (h : t.Calm) : LosesNone env q srt s t := by
  cases t with
  | tier i ev => exact Or.inr fun e _ _ => (h e).2
  | energy ev => exact fun p _ _ => ⟨(h _ _).1, (h _ _).2⟩

/-- A run of ticks without a failure loses none. -/
theorem calm_losesNone {ts : List (RamTick E L α)} (h : ∀ t ∈ ts, t.Calm) (s : Server E L α) :
    StepsMeet (Server.ramTick env q srt) (LosesNone env q srt) s ts :=
  StepsMeet.of_invariant (I := fun _ => True) (fun _ _ _ _ => trivial) (fun _ _ ht _ => ht.losesNone) trivial ts h

variable (q srt) in
/-- The sizes along a run. -/
theorem ramSizes_run (hs : ∀ i, Budgeted env (s.methods i)) (ts : List (RamTick E L α)) :
    (ts.foldl (Server.ramTick env q srt) s).ramSizes ≤ s.ramSizes ∧
      ((ts.foldl (Server.ramTick env q srt) s).ramSizes = s.ramSizes ↔
        StepsMeet (Server.ramTick env q srt) (LosesNone env q srt) s ts) :=
  measure_foldl_eq_iff (I := fun s => ∀ i, Budgeted env (s.methods i)) (fun _ t hs => (ramSizes_step q srt t hs).1)
    (fun _ t hs => (ramSizes_step q srt t hs).2.1) (fun _ t hs => (ramSizes_step q srt t hs).2.2) hs ts

omit [LinearOrder α] in
theorem boot_budgeted (adaptive : Bool) (ranking : Fin L → Option (List (Fin E))) (gpuMask : Fin L → Finset (Fin E))
    (i : Fin L) : Budgeted env ((Server.boot env adaptive ranking gpuMask 0 : Server E L α).methods i) := by
  have hok : LayerOk env (gpuMask i).card ((Server.boot env adaptive ranking gpuMask 0 : Server E L α).methods i) :=
    boot_layerOk adaptive (ranking i) (gpuMask i)
  have hdisj : Disjoint ((Server.boot env adaptive ranking gpuMask 0 : Server E L α).methods i).gpuExpertsMask
      ((Server.boot env adaptive ranking gpuMask 0 : Server E L α).methods i).ramExpertsMask :=
    Method.boot_disjoint env adaptive (ranking i) 0 (gpuMask i)
  refine ⟨hok.seats.imp fun t h => h.1, hok.wired, hok.tpRank, ?_⟩
  rw [← Finset.card_union_of_disjoint hdisj]
  exact (Finset.card_le_univ _).trans_eq (Fintype.card_fin E)

end Runs

/-- **A lost place is never given back.** From boot, after any run of tier ticks and energy ticks, and however many
ticks without a failure follow it, every RAM tier has the size of boot exactly when no tick of the run lost a
place. -/
theorem ramBudget_kept_iff (env : Env α) (q : Quant) (srt : Argsort (Fin E) α) (adaptive : Bool)
    (ranking : Fin L → Option (List (Fin E))) (gpuMask : Fin L → Finset (Fin E)) (ts calm : List (RamTick E L α))
    (hcalm : ∀ t ∈ calm, t.Calm) :
    ((ts ++ calm).foldl (Server.ramTick env q srt) (Server.boot env adaptive ranking gpuMask 0)).ramSizes =
        (Server.boot env adaptive ranking gpuMask 0 : Server E L α).ramSizes ↔
      StepsMeet (Server.ramTick env q srt) (LosesNone env q srt) (Server.boot env adaptive ranking gpuMask 0) ts := by
  rw [(ramSizes_run q srt (boot_budgeted adaptive ranking gpuMask) (ts ++ calm)).2, stepsMeet_append]
  exact and_iff_left (calm_losesNone hcalm _)

/-- Expert 3 is in demand while it is on disk; its promotion returns or raises. -/
def promotesThree (promote : Outcome) : RamTick 4 1 ℚ :=
  .tier 0
    { counts := ![1, 1, 0, 100]
      frozen := false
      ctxBuilt := false
      evict := fun _ => .ok
      promote := fun _ => promote }

/-- The move of expert 3 into host RAM, with the stage that returns or raises. -/
def movesThree (stage : Outcome) : RamTick 4 1 ℚ := .energy { surgeThree true with stage := fun _ _ => stage }

theorem ramBudget_kept_iff_promotesThree :
    ([promotesThree .ok, movesThree .ok].foldl (Server.ramTick energyOneInRam .w4afp8 Argsort.stable)
      (Server.boot energyOneInRam true (fun _ => none) (fun _ => {0, 1}) 0)).ramSizes =
        (Server.boot energyOneInRam true (fun _ => none) (fun _ => {0, 1}) 0 : Server 4 1 ℚ).ramSizes := by
  refine (ramBudget_kept_iff energyOneInRam .w4afp8 Argsort.stable true (fun _ => none) (fun _ => {0, 1})
    [promotesThree .ok] [movesThree .ok] ?_).mpr ⟨Or.inr fun _ _ _ => rfl, trivial⟩
  intro t ht
  obtain rfl := List.mem_singleton.mp ht
  exact fun _ _ => ⟨rfl, rfl⟩

/-- One raising call of either controller empties a tier of one expert, and no ticks without a failure refill it. -/
theorem lost_place_stays_lost :
    (¬ ∃ calm : List (RamTick 4 1 ℚ), (∀ t ∈ calm, t.Calm) ∧
      ((promotesThree (.raised false) :: calm).foldl (Server.ramTick energyOneInRam .w4afp8 Argsort.stable)
        (Server.boot energyOneInRam true (fun _ => none) (fun _ => {0, 1}) 0)).ramSizes 0 = 1) ∧
    ¬ ∃ calm : List (RamTick 4 1 ℚ), (∀ t ∈ calm, t.Calm) ∧
      ((movesThree (.raised false) :: calm).foldl (Server.ramTick energyOneInRam .w4afp8 Argsort.stable)
        (Server.boot energyOneInRam true (fun _ => none) (fun _ => {0, 1}) 0)).ramSizes 0 = 1 := by
  have hboot : ∀ i, Budgeted energyOneInRam ((Server.boot energyOneInRam true (fun _ => none) (fun _ => {0, 1}) 0 :
      Server 4 1 ℚ).methods i) := boot_budgeted true _ _
  have hempty : ∀ t : RamTick 4 1 ℚ, ((Server.boot energyOneInRam true (fun _ => none) (fun _ => {0, 1}) 0 :
      Server 4 1 ℚ).ramTick energyOneInRam .w4afp8 Argsort.stable t).ramSizes 0 = 0 →
      ¬ ∃ calm : List (RamTick 4 1 ℚ), (∀ t ∈ calm, t.Calm) ∧
        ((t :: calm).foldl (Server.ramTick energyOneInRam .w4afp8 Argsort.stable)
          (Server.boot energyOneInRam true (fun _ => none) (fun _ => {0, 1}) 0)).ramSizes 0 = 1 := by
    rintro t hlost ⟨calm, -, hfull⟩
    have hle := (ramSizes_run .w4afp8 Argsort.stable (ramSizes_step .w4afp8 Argsort.stable t hboot).1 calm).1 0
    rw [List.foldl_cons] at hfull
    exact absurd (hfull.symm.trans_le (hle.trans_eq hlost)) (by decide)
  exact ⟨hempty _ (by decide +kernel), hempty _ (by decide +kernel)⟩

end ExpertServe
