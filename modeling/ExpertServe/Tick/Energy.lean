import ExpertServe.Residency.SlotTable
import ExpertServe.Residency.Store

/-!
# The energy tick

`kt_energy_on_decode_step` on one rank: a decision over all layers (`energyPlan`), the moves between disk and
host RAM it can afford (`energyMoves`), then the layers it can afford to restage on the GPU
(`energyRestages`).

* `energyPlan_layers_nodup`: a tick moves at most one expert per layer;
* `energyMove_spec`, `energyRestage_spec`: what one move and one restage leave of a layer.
-/

namespace ExpertServe

open Lib

variable {E L : ℕ} {α : Type*} [Field α] [LinearOrder α]

/-- The layers of a server on one rank, the state of the margin controller and the energy step counter. -/
structure Server (E L : ℕ) (α : Type*) where
  methods : Fin L → Method E
  ctl : Ctl α
  energyStep : ℕ

/-- A server after boot on one rank. -/
def Server.boot (env : Env α) (adaptive : Bool) (ranking : Fin L → Option (List (Fin E)))
    (gpuMask : Fin L → Finset (Fin E)) (tpRank : ℕ) : Server E L α where
  methods i := Method.boot env adaptive (ranking i) tpRank (gpuMask i)
  ctl := {}
  energyStep := 0

/-- What an energy tick meets: the energies, which experts the prefetcher has ready when they are asked for,
and how each call into the CPU store would end. -/
structure EnergyEvent (E L : ℕ) (α : Type*) where
  allE : Fin L → Fin E → α
  ready : Fin L → Fin E → Bool
  evict : Fin L → Fin E → Outcome
  stage : Fin L → Fin E → Outcome

/-- A move the decision asks for: its gain, its layer, the expert to promote and the one to evict. -/
structure Promotion (E L : ℕ) (α : Type*) where
  gain : α
  layer : Fin L
  promote : Fin E
  evict : Fin E

/-! ## The decision -/

/-- `_kt_energy_worth_moving`: a ratio margin and a floor scaled by the mean energy of the layer. -/
def ktEnergyWorthMoving (e : Fin E → α) (challenger incumbent : α) (margin minGainMean : α) : Bool :=
  decide (margin * incumbent + eMinus 12 < challenger ∧
    minGainMean * ((∑ i, e i) / (E : α)) ≤ challenger - incumbent)

/-- The move one layer asks for: of its best expert on disk for its worst in host RAM. -/
def energyPromotions (env : Env α) (m : Method E) (e : Fin E → α) (i : Fin L) : List (Promotion E L α) :=
  match (whereTrue (m.gpuExpertsMask ∪ m.ramExpertsMask)ᶜ).argmax e, (whereTrue m.ramExpertsMask).argmin e with
  | some bestSsd, some worstRam =>
    if ktEnergyWorthMoving e (e bestSsd) (e worstRam) env.ktEnergyMargin env.ktEnergyMinGainMean then
      [⟨e bestSsd - e worstRam, i, bestSsd, worstRam⟩] else []
  | _, _ => []

/-- Whether it asks to be restaged; `none` when the reduction over an empty GPU set raises. -/
def energyCandidates (env : Env α) (m : Method E) (e : Fin E → α) (i : Fin L) : Option (List (α × Fin L)) :=
  if env.ktEnergyGpu then
    match (whereTrue m.gpuExpertsMask).argmin e, (whereTrue m.ramExpertsMask).argmax e with
    | some worstGpu, some bestRam =>
      if ktEnergyWorthMoving e (e bestRam) (e worstGpu) env.ktEnergyGpuMargin env.ktEnergyGpuMinGainMean then
        some [(e bestRam - e worstGpu, i)]
      else some []
    | _, _ => none
  else some []

/-- What one layer asks for. A layer with nothing on disk or nothing in host RAM is passed over. -/
def energyLayer (env : Env α) (m : Method E) (e : Fin E → α) (i : Fin L) :
    Option (List (Promotion E L α) × List (α × Fin L)) :=
  if (m.gpuExpertsMask ∪ m.ramExpertsMask)ᶜ = ∅ ∨ m.ramExpertsMask = ∅ then some ([], [])
  else (energyCandidates env m e i).map fun gpuCandidates => (energyPromotions env m e i, gpuCandidates)

/-- The moves and the restages a tick carries out, best gain first, within its budgets; `none` when the
decision raises. -/
def energyPlan (env : Env α) (methods : Fin L → Method E) (allE : Fin L → Fin E → α) :
    Option (List (Promotion E L α) × List (Fin L)) :=
  if (List.finRange L).any fun i => (energyLayer env (methods i) (allE i) i).isNone then none
  else
    let found := (List.finRange L).filterMap fun i => energyLayer env (methods i) (allE i) i
    let promotions := (found.flatMap Prod.fst).insertionSort fun x y => y.gain ≤ x.gain
    let gpuCandidates := (found.flatMap Prod.snd).insertionSort fun x y => y.1 ≤ x.1
    some (sliceTo promotions env.ktEnergyMaxMoves, (sliceTo gpuCandidates env.ktEnergyMaxGpuLayers).map Prod.snd)

/-! ## The moves -/

/-- One move between disk and host RAM on one layer. The rank that owns the store skips it when the weights
are not ready, and advertises the promoted expert only when both calls into the store return. -/
def energyMove (env : Env α) (ready : Bool) (evict stage : Outcome) (promoteE evictE : Fin E) (m : Method E) :
    Method E :=
  if m.tpRank = 0 ∧ ¬ ready then m
  else
    let m := m.setRam (m.ramExpertsMask.erase evictE)
    if m.tpRank = 0 ∧ m.wrapper.isSome then
      let m := (m.refreshWrapper env).evictExpert evictE evict
      if evict ≠ .ok then m
      else
        let m := m.stageExpert promoteE stage
        if stage ≠ .ok then m
        else (m.setRam (insert promoteE m.ramExpertsMask)).refreshWrapper env
    else m.setRam (insert promoteE m.ramExpertsMask)

/-- The moves of a tick, one layer after the other. -/
def energyMoves (env : Env α) (ev : EnergyEvent E L α) (promotions : List (Promotion E L α))
    (methods : Fin L → Method E) : Fin L → Method E :=
  modifies methods Promotion.layer
    (fun p m => energyMove env (ev.ready p.layer p.promote) (ev.evict p.layer p.evict)
      (ev.stage p.layer p.promote) p.promote p.evict m) promotions

/-! ## The restages -/

/-- The GPU set a restage asks for: the most energetic experts that are off disk. -/
def energyGpuSelect (srt : Argsort (Fin E) α) (e : Fin E → α) (m : Method E) : List (Fin E) :=
  (srt.desc e (whereTrue (m.gpuExpertsMask ∪ m.ramExpertsMask))).take m.numGpuExperts

/-- One restage, by the full path; an exception is logged and leaves the layer as it is. -/
def energyRestage (env : Env α) (q : Quant) (srt : Argsort (Fin E) α) (store : Finset (Fin E)) (e : Fin E → α)
    (m : Method E) : Method E :=
  let sel := energyGpuSelect srt e m
  if sel.length ≠ (whereTrue m.gpuExpertsMask).length then m
  else (changeGpuSet env q false store false sel m).2

/-- The restages of a tick. -/
def energyRestages (env : Env α) (q : Quant) (srt : Argsort (Fin E) α) (stores : Fin L → Finset (Fin E))
    (ev : EnergyEvent E L α) (layers : List (Fin L)) (methods : Fin L → Method E) : Fin L → Method E :=
  modifies methods id (fun i m => energyRestage env q srt (stores i) (ev.allE i) m) layers

/-! ## The tick -/

/-- Whether this decode step is one the tick acts on. -/
def energyDue (env : Env α) (L step : ℕ) : Bool :=
  env.ktEnergy && decide (L ≠ 0) && decide (0 < env.ktEnergyPeriod) &&
    decide (((step : ℤ) + 1) % env.ktEnergyPeriod = 0)

/-- The moves and restages of the coming tick: none when it is not due or the decision raises. -/
def energyTodo (env : Env α) (s : Server E L α) (allE : Fin L → Fin E → α) :
    List (Promotion E L α) × List (Fin L) :=
  if energyDue env L s.energyStep then (energyPlan env s.methods allE).getD ([], []) else ([], [])

/-- `kt_energy_on_decode_step` on one rank, the bytes of a restage coming from the stores given. -/
def ktEnergyOnDecodeStep (env : Env α) (q : Quant) (srt : Argsort (Fin E) α) (stores : Fin L → Finset (Fin E))
    (s : Server E L α) (ev : EnergyEvent E L α) : Server E L α :=
  let todo := energyTodo env s ev.allE
  { s with
    methods := energyRestages env q srt stores ev todo.2 (energyMoves env ev todo.1 s.methods)
    energyStep := if env.ktEnergy && decide (L ≠ 0) then s.energyStep + 1 else s.energyStep }

/-! ## What the decision asks for -/

section Plan

variable {env : Env α} {m : Method E} {e : Fin E → α} {i : Fin L} {ps : List (Promotion E L α)} {gs : List (α × Fin L)}

/-- There is no move without an expert on disk and one in host RAM. -/
theorem energyPromotions_of_empty
    (h : (m.gpuExpertsMask ∪ m.ramExpertsMask)ᶜ = ∅ ∨ m.ramExpertsMask = ∅) :
    (energyPromotions env m e i : List (Promotion E L α)) = [] := by
  unfold energyPromotions
  split
  · next bestSsd worstRam hssd hram =>
    have hbest := mem_whereTrue.mp (List.argmax_mem hssd)
    have hworst := mem_whereTrue.mp (List.argmin_mem hram)
    rcases h with h | h
    · exact absurd (h ▸ hbest) (Finset.notMem_empty _)
    · exact absurd (h ▸ hworst) (Finset.notMem_empty _)
  · rfl

/-- The GPU half of the decision does not change the move asked for. -/
theorem energyLayer_promotions_eq (h : energyLayer env m e i = some (ps, gs)) : ps = energyPromotions env m e i := by
  unfold energyLayer at h
  split at h
  · next hempty =>
    rw [energyPromotions_of_empty hempty]
    exact (Prod.ext_iff.mp (Option.some.inj h)).1.symm
  · obtain ⟨gpuCandidates, -, heq⟩ := Option.map_eq_some_iff.mp h
    exact (Prod.ext_iff.mp heq).1.symm

/-- It is of an expert on disk for one in host RAM that is worth it. -/
theorem mem_energyPromotions {p : Promotion E L α} (hp : p ∈ energyPromotions env m e i) :
    p.layer = i ∧ p.promote ∉ m.gpuExpertsMask ∪ m.ramExpertsMask ∧ p.evict ∈ m.ramExpertsMask ∧
      ktEnergyWorthMoving e (e p.promote) (e p.evict) env.ktEnergyMargin env.ktEnergyMinGainMean = true := by
  unfold energyPromotions at hp
  split at hp
  · rename_i bestSsd worstRam hssd hram
    split at hp
    · rename_i hworth
      obtain rfl := List.mem_singleton.mp hp
      exact ⟨rfl, Finset.mem_compl.mp (mem_whereTrue.mp (List.argmax_mem hssd)),
        mem_whereTrue.mp (List.argmin_mem hram), hworth⟩
    · exact absurd hp List.not_mem_nil
  · exact absurd hp List.not_mem_nil

theorem length_energyPromotions_le : (energyPromotions env m e i).length ≤ 1 := by
  unfold energyPromotions
  split
  · split
    · exact le_refl _
    · exact Nat.zero_le _
  · exact Nat.zero_le _

/-- A layer asks for at most one move, of its own best disk expert for its own worst RAM expert. -/
theorem energyLayer_promotions (h : energyLayer env m e i = some (ps, gs)) : (ps.map Promotion.layer).Sublist [i] := by
  obtain rfl := energyLayer_promotions_eq h
  have hlen : (energyPromotions env m e i).length ≤ 1 := length_energyPromotions_le
  cases hps : energyPromotions env m e i with
  | nil => exact List.nil_sublist _
  | cons p rest =>
    have hlayer : p.layer = i := (mem_energyPromotions (hps ▸ List.mem_cons_self)).1
    have hrest : rest = [] := List.length_eq_zero_iff.mp (by rw [hps, List.length_cons] at hlen; omega)
    rw [hrest, List.map_singleton, hlayer]

/-- A layer asks to be restaged at most once. -/
theorem energyCandidates_sublist (h : energyCandidates env m e i = some gs) : (gs.map Prod.snd).Sublist [i] := by
  unfold energyCandidates at h
  split at h
  · split at h
    · split at h
      · obtain rfl := Option.some.inj h
        exact List.Sublist.refl _
      · obtain rfl := Option.some.inj h
        exact List.nil_sublist _
    · exact absurd h.symm (Option.some_ne_none _)
  · obtain rfl := Option.some.inj h
    exact List.nil_sublist _

theorem energyLayer_candidates (h : energyLayer env m e i = some (ps, gs)) : (gs.map Prod.snd).Sublist [i] := by
  unfold energyLayer at h
  split at h
  · obtain rfl := (Prod.ext_iff.mp (Option.some.inj h)).2
    exact List.nil_sublist _
  · obtain ⟨gpuCandidates, hgpu, heq⟩ := Option.map_eq_some_iff.mp h
    obtain rfl := (Prod.ext_iff.mp heq).2
    exact energyCandidates_sublist hgpu

/-- What each layer contributes at most once is, over all layers, one entry per layer. -/
theorem flatMap_keys_sublist {β γ : Type*} (f : Fin L → Option β) (part : β → List γ) (key : γ → Fin L)
    (h : ∀ i b, f i = some b → ((part b).map key).Sublist [i]) (l : List (Fin L)) :
    (((l.filterMap f).flatMap part).map key).Sublist l := by
  induction l with
  | nil => exact List.Sublist.refl _
  | cons i l ih =>
    cases hf : f i with
    | none =>
      rw [List.filterMap_cons_none hf]
      exact ih.cons i
    | some b =>
      rw [List.filterMap_cons_some hf, List.flatMap_cons, List.map_append]
      exact (h i b hf).append ih

variable {methods : Fin L → Method E} {allE : Fin L → Fin E → α} {layers : List (Fin L)}

/-- Every move of a tick is the one its layer asks for. -/
theorem mem_energyPlan {p : Promotion E L α} (h : energyPlan env methods allE = some (ps, layers)) (hp : p ∈ ps) :
    p ∈ energyPromotions env (methods p.layer) (allE p.layer) p.layer := by
  unfold energyPlan at h
  split at h
  · exact absurd h.symm (Option.some_ne_none _)
  obtain ⟨rfl, -⟩ := Prod.ext_iff.mp (Option.some.inj h)
  have hp' := (List.mem_insertionSort _).mp ((sliceTo_sublist _ _).subset hp)
  obtain ⟨⟨found, _⟩, hb, hpb⟩ := List.mem_flatMap.mp hp'
  obtain ⟨i, -, hi⟩ := List.mem_filterMap.mp hb
  have hasked : p ∈ energyPromotions env (methods i) (allE i) i := energyLayer_promotions_eq hi ▸ hpb
  obtain rfl := (mem_energyPromotions hasked).1
  exact hasked

/-- **One move per layer.** The moves of a tick are on distinct layers. -/
theorem energyPlan_promotions (h : energyPlan env methods allE = some (ps, layers)) :
    (ps.map Promotion.layer).Nodup := by
  unfold energyPlan at h
  split at h
  · exact absurd h.symm (Option.some_ne_none _)
  obtain ⟨rfl, -⟩ := Prod.ext_iff.mp (Option.some.inj h)
  have hsub := flatMap_keys_sublist (fun i => energyLayer env (methods i) (allE i) i) Prod.fst Promotion.layer
    (fun i b hb => energyLayer_promotions hb) (List.finRange L)
  have hperm := List.perm_insertionSort (fun x y : Promotion E L α => y.gain ≤ x.gain)
    (((List.finRange L).filterMap fun i => energyLayer env (methods i) (allE i) i).flatMap Prod.fst)
  refine ((sliceTo_sublist _ _).map Promotion.layer).nodup ?_
  exact (hperm.map Promotion.layer).nodup_iff.mpr (hsub.nodup (List.nodup_finRange L))

theorem energyPlan_layers_nodup (h : energyPlan env methods allE = some (ps, layers)) : layers.Nodup := by
  unfold energyPlan at h
  split at h
  · exact absurd h.symm (Option.some_ne_none _)
  obtain ⟨-, rfl⟩ := Prod.ext_iff.mp (Option.some.inj h)
  have hsub := flatMap_keys_sublist (fun i => energyLayer env (methods i) (allE i) i) Prod.snd Prod.snd
    (fun i b hb => energyLayer_candidates hb) (List.finRange L)
  have hperm := List.perm_insertionSort (fun x y : α × Fin L => y.1 ≤ x.1)
    (((List.finRange L).filterMap fun i => energyLayer env (methods i) (allE i) i).flatMap Prod.snd)
  refine ((sliceTo_sublist _ _).map Prod.snd).nodup ?_
  exact (hperm.map Prod.snd).nodup_iff.mpr (hsub.nodup (List.nodup_finRange L))

/-- The decision reads the masks of the layers only. -/
theorem energyPlan_congr {methods' : Fin L → Method E}
    (hgpu : ∀ i, (methods' i).gpuExpertsMask = (methods i).gpuExpertsMask)
    (hram : ∀ i, (methods' i).ramExpertsMask = (methods i).ramExpertsMask) :
    energyPlan env methods' allE = energyPlan env methods allE := by
  have hlayer : ∀ i, energyLayer env (methods' i) (allE i) i = energyLayer env (methods i) (allE i) i := fun i => by
    unfold energyLayer energyCandidates energyPromotions
    rw [hgpu i, hram i]
  unfold energyPlan
  simp only [hlayer]

variable {s : Server E L α}

theorem mem_energyTodo {p : Promotion E L α} (hp : p ∈ (energyTodo env s allE).1) :
    p ∈ energyPromotions env (s.methods p.layer) (allE p.layer) p.layer := by
  unfold energyTodo at hp
  split at hp
  · cases hplan : energyPlan env s.methods allE with
    | none =>
      rw [hplan] at hp
      exact absurd hp List.not_mem_nil
    | some todo =>
      rw [hplan] at hp
      exact mem_energyPlan hplan hp
  · exact absurd hp List.not_mem_nil

theorem energyTodo_promotions :
    ((energyTodo env s allE).1.map Promotion.layer).Nodup ∧
      ∀ p ∈ (energyTodo env s allE).1,
        p.promote ∉ (s.methods p.layer).gpuExpertsMask ∪ (s.methods p.layer).ramExpertsMask ∧
          p.evict ∈ (s.methods p.layer).ramExpertsMask := by
  refine ⟨?_, fun p hp => ?_⟩
  · unfold energyTodo
    split
    · cases hplan : energyPlan env s.methods allE with
      | none => exact List.nodup_nil
      | some todo => exact energyPlan_promotions hplan
    · exact List.nodup_nil
  · obtain ⟨-, hpromote, hevict, -⟩ := mem_energyPromotions (mem_energyTodo hp)
    exact ⟨hpromote, hevict⟩

theorem energyTodo_layers_nodup : (energyTodo env s allE).2.Nodup := by
  unfold energyTodo
  split
  · cases hplan : energyPlan env s.methods allE with
    | none => exact List.nodup_nil
    | some todo => exact energyPlan_layers_nodup hplan
  · exact List.nodup_nil

/-- Servers in the same step with the same masks set out to do the same. -/
theorem energyTodo_congr {s' : Server E L α} (hstep : s'.energyStep = s.energyStep)
    (hgpu : ∀ i, (s'.methods i).gpuExpertsMask = (s.methods i).gpuExpertsMask)
    (hram : ∀ i, (s'.methods i).ramExpertsMask = (s.methods i).ramExpertsMask) :
    energyTodo env s' allE = energyTodo env s allE := by
  unfold energyTodo
  rw [hstep, energyPlan_congr hgpu hram]

end Plan

/-! ## What a move and a restage leave -/

section Move

omit [LinearOrder α]

/-- What one move leaves of a layer: its tables and slots are untouched, and the promoted expert takes the
place of the evicted one in the RAM mask, unless the owner of the store finds the weights not ready or one of
its calls into the store raises. -/
structure EnergyMoved (env : Env α) (ready : Bool) (evict stage : Outcome) (promoteE evictE : Fin E)
    (m m' : Method E) : Prop where
  tables : m.SameTables m'
  tpRank : m'.tpRank = m.tpRank
  owner : m'.wrapper.isSome = m.wrapper.isSome
  ramMask : m'.ramExpertsMask =
    if m.tpRank = 0 ∧ ¬ ready then m.ramExpertsMask
    else if m.tpRank = 0 ∧ m.wrapper.isSome ∧ ¬ (evict = .ok ∧ stage = .ok) then m.ramExpertsMask.erase evictE
    else insert promoteE (m.ramExpertsMask.erase evictE)
  mirror : m.ramExpertsMaskCuda = m.ramExpertsMask → m'.ramExpertsMaskCuda = m'.ramExpertsMask
  wired : m.Wired env → m'.Wired env

variable {env : Env α} {ready : Bool} {evict stage : Outcome} {promoteE evictE : Fin E} {m : Method E}

/-- The owner of the store after it has masked the evicted expert out and called `evict_expert`. -/
structure EnergyEvicted (env : Env α) (evictE : Fin E) (m m₁ : Method E) : Prop where
  tables : m.SameTables m₁
  tpRank : m₁.tpRank = m.tpRank
  owner : m₁.wrapper.isSome = m.wrapper.isSome
  ramMask : m₁.ramExpertsMask = m.ramExpertsMask.erase evictE
  mirror : m₁.ramExpertsMaskCuda = m₁.ramExpertsMask
  wired : m.Wired env → m₁.Wired env

theorem energyEvicted_spec :
    EnergyEvicted env evictE m
      (((m.setRam (m.ramExpertsMask.erase evictE)).refreshWrapper env).evictExpert evictE evict) where
  tables := ((m.sameTables_setRam _).trans (Method.sameTables_refreshWrapper env)).trans
    (Method.sameTables_evictExpert _ _)
  tpRank := rfl
  owner := by
    rw [Method.evictExpert_isSome, Method.refreshWrapper_isSome]
    rfl
  ramMask := rfl
  mirror := rfl
  wired hw := by
    have hmasked : ((m.setRam (m.ramExpertsMask.erase evictE)).refreshWrapper env).Wired env :=
      Method.refreshWrapper_wired hw.owner
    exact hmasked.evictExpert

theorem energyMove_spec :
    EnergyMoved env ready evict stage promoteE evictE m
      (energyMove env ready evict stage promoteE evictE m) := by
  unfold energyMove
  dsimp only
  by_cases hskip : m.tpRank = 0 ∧ ¬ ready
  · rw [if_pos hskip]
    exact ⟨⟨rfl, rfl, rfl, rfl, rfl, rfl, rfl⟩, rfl, rfl, (if_pos hskip).symm, id, id⟩
  rw [if_neg hskip]
  by_cases hstore : (m.setRam (m.ramExpertsMask.erase evictE)).tpRank = 0 ∧
      (m.setRam (m.ramExpertsMask.erase evictE)).wrapper.isSome
  swap
  · -- a rank without a store only moves the mask
    rw [if_neg hstore]
    refine ⟨(m.sameTables_setRam _).trans (Method.sameTables_setRam _ _), rfl, rfl, ?_, fun _ => rfl,
      fun hw => ⟨hw.owner, fun w hw' => ?_⟩⟩
    · rw [if_neg hskip, if_neg fun h => hstore ⟨h.1, h.2.1⟩]
      rfl
    · have hsome : m.wrapper.isSome := Option.isSome_iff_exists.mpr ⟨w, hw'⟩
      exact absurd ⟨hw.owner.mp hsome, hsome⟩ hstore
  rw [if_pos hstore]
  have h₁ : EnergyEvicted env evictE m
      (((m.setRam (m.ramExpertsMask.erase evictE)).refreshWrapper env).evictExpert evictE evict) := energyEvicted_spec
  generalize ((m.setRam (m.ramExpertsMask.erase evictE)).refreshWrapper env).evictExpert evictE evict = m₁ at *
  by_cases hevict : evict = .ok
  swap
  · rw [if_pos hevict]
    refine ⟨h₁.tables, h₁.tpRank, h₁.owner, ?_, fun _ => h₁.mirror, h₁.wired⟩
    rw [if_neg hskip, if_pos ⟨hstore.1, hstore.2, fun h => hevict h.1⟩, h₁.ramMask]
  rw [if_neg (not_not.mpr hevict)]
  have htables : m.SameTables (m₁.stageExpert promoteE stage) :=
    h₁.tables.trans (Method.sameTables_stageExpert _ _)
  have howner : (m₁.stageExpert promoteE stage).wrapper.isSome = m.wrapper.isSome :=
    Method.stageExpert_isSome.trans h₁.owner
  by_cases hstage : stage = .ok
  swap
  · rw [if_pos hstage]
    refine ⟨htables, h₁.tpRank, howner, ?_, fun _ => h₁.mirror, fun hw => (h₁.wired hw).stageExpert⟩
    rw [if_neg hskip, if_pos ⟨hstore.1, hstore.2, fun h => hstage h.2⟩]
    exact h₁.ramMask
  · rw [if_neg (not_not.mpr hstage)]
    refine ⟨(htables.trans (Method.sameTables_setRam _ _)).trans (Method.sameTables_refreshWrapper env), h₁.tpRank,
      Method.refreshWrapper_isSome.trans howner, ?_, fun _ => rfl,
      fun hw => Method.refreshWrapper_wired (h₁.wired hw).stageExpert.owner⟩
    rw [if_neg hskip, if_neg fun h => h.2.2 ⟨hevict, hstage⟩, ← h₁.ramMask]
    rfl

/-- A move keeps the RAM tier of the owning rank staged, when the promoted expert is new to it. -/
theorem energyMove_staged (hw : m.Wired env) (h0 : m.tpRank = 0) (hram : m.ramExpertsMask ⊆ m.store)
    (hnew : promoteE ∉ m.ramExpertsMask) :
    (energyMove env ready evict stage promoteE evictE m).ramExpertsMask ⊆
      (energyMove env ready evict stage promoteE evictE m).store := by
  have hsome : m.wrapper.isSome := hw.owner.mpr h0
  unfold energyMove
  dsimp only
  by_cases hskip : m.tpRank = 0 ∧ ¬ ready
  · rw [if_pos hskip]
    exact hram
  rw [if_neg hskip, if_pos (show (m.setRam (m.ramExpertsMask.erase evictE)).tpRank = 0 ∧
    (m.setRam (m.ramExpertsMask.erase evictE)).wrapper.isSome from ⟨h0, hsome⟩)]
  have h₁ : EnergyEvicted env evictE m
      (((m.setRam (m.ramExpertsMask.erase evictE)).refreshWrapper env).evictExpert evictE evict) := energyEvicted_spec
  have hevicted : m.ramExpertsMask.erase evictE ⊆
      (((m.setRam (m.ramExpertsMask.erase evictE)).refreshWrapper env).evictExpert evictE evict).store := by
    intro i hi
    rw [Method.mem_store_evictExpert_of_ne (Finset.ne_of_mem_erase hi), Method.store_refreshWrapper]
    exact hram (Finset.mem_of_mem_erase hi)
  generalize ((m.setRam (m.ramExpertsMask.erase evictE)).refreshWrapper env).evictExpert evictE evict = m₁ at *
  by_cases hevict : evict = .ok
  swap
  · rw [if_pos hevict, h₁.ramMask]
    exact hevicted
  rw [if_neg (not_not.mpr hevict)]
  have hstaged : m.ramExpertsMask.erase evictE ⊆ (m₁.stageExpert promoteE stage).store := fun i hi => by
    have hne : i ≠ promoteE := fun h => hnew (h ▸ Finset.mem_of_mem_erase hi)
    exact (Method.mem_store_stageExpert_of_ne hne).mpr (hevicted hi)
  by_cases hstage : stage = .ok
  swap
  · rw [if_pos hstage]
    exact h₁.ramMask.subset.trans hstaged
  rw [if_neg (not_not.mpr hstage), Method.store_refreshWrapper]
  show insert promoteE m₁.ramExpertsMask ⊆ (m₁.stageExpert promoteE stage).store
  rw [h₁.ramMask, hstage]
  refine Finset.insert_subset (Method.mem_store_stageExpert_ok ?_) (hstage ▸ hstaged)
  rw [h₁.owner]
  exact hsome

end Move

section Restage

variable {env : Env α} {q : Quant} {srt : Argsort (Fin E) α} {store : Finset (Fin E)} {e : Fin E → α}
  {m : Method E}

omit [Field α] in
theorem energyGpuSelect_nodup : (energyGpuSelect srt e m).Nodup := by
  unfold energyGpuSelect
  exact (srt.nodup_desc (whereTrue_nodup _)).sublist (List.take_sublist _ _)

omit [Field α] in
theorem energyGpuSelect_subset {i : Fin E} (hi : i ∈ energyGpuSelect srt e m) :
    i ∈ m.gpuExpertsMask ∪ m.ramExpertsMask := by
  unfold energyGpuSelect at hi
  exact mem_whereTrue.mp (srt.mem_desc.mp (List.mem_of_mem_take hi))

/-- The GPU set a restage leaves: the one asked for, unless it has the wrong size or the copy raises. -/
def restagedGpu (q : Quant) (srt : Argsort (Fin E) α) (e : Fin E → α) (m : Method E) : Finset (Fin E) :=
  if q = .mxfp4 ∨ (energyGpuSelect srt e m).length ≠ m.gpuExpertsMask.card then m.gpuExpertsMask
  else (energyGpuSelect srt e m).toFinset

/-- What one restage leaves of a layer. -/
structure EnergyRestaged (env : Env α) (q : Quant) (srt : Argsort (Fin E) α) (e : Fin E → α)
    (m m' : Method E) : Prop where
  gpuMask : m'.gpuExpertsMask = restagedGpu q srt e m
  ram : m.SameRam m'
  numGpuExperts : m'.numGpuExperts = m.numGpuExperts
  owner : m'.wrapper.isSome = m.wrapper.isSome
  wired : m.Wired env → m'.Wired env
  seats : ∀ n, m.Seats n → m'.Seats n

theorem energyRestage_spec : EnergyRestaged env q srt e m (energyRestage env q srt store e m) := by
  have hstay : restagedGpu q srt e m = m.gpuExpertsMask → EnergyRestaged env q srt e m m := fun h =>
    ⟨h.symm, Method.SameRam.refl m, rfl, rfl, id, fun _ => id⟩
  unfold energyRestage
  dsimp only
  rw [length_whereTrue]
  by_cases hlen : (energyGpuSelect srt e m).length = m.gpuExpertsMask.card
  swap
  · rw [if_pos hlen]
    exact hstay (if_pos (Or.inr hlen))
  rw [if_neg (not_not.mpr hlen)]
  unfold changeGpuSet
  by_cases hsame : (whereTrue m.gpuExpertsMask).Perm (energyGpuSelect srt e m)
  · rw [if_pos hsame]
    refine hstay ?_
    unfold restagedGpu
    rw [(whereTrue_perm_iff energyGpuSelect_nodup).mp hsame, ite_self]
  rw [if_neg hsame]
  unfold swapGpuExperts
  by_cases hq : q = .mxfp4
  · subst hq
    exact hstay (if_pos (Or.inl rfl))
  · have hnodup : (energyGpuSelect srt e m).Nodup := energyGpuSelect_nodup
    obtain ⟨slots, heq, -⟩ := applyExpertSelection_spec env (load q store m none) m hq hnodup
    rw [if_neg Bool.false_ne_true, if_neg Bool.false_ne_true, heq]
    refine ⟨?_, m.sameRam_reseated env slots _, rfl, Method.refreshWrapper_isSome,
      Method.wired_reseated slots _, fun n hn => ?_⟩
    · unfold restagedGpu
      rw [if_neg fun h => h.elim hq fun h' => h' hlen]
      rfl
    · refine ⟨_, m.tabled_reseated env slots _, hlen.trans hn.card_mask, ?_⟩
      obtain ⟨t, -, -, hnum⟩ := hn
      exact hnum

/-- A restage leaves tables of a seating, whatever the size of the set. -/
theorem energyRestage_tabled (ht : ∃ t, m.Tabled t) : ∃ t, (energyRestage env q srt store e m).Tabled t := by
  unfold energyRestage
  dsimp only
  split
  · exact ht
  · exact (changeGpuSet_changed env false false store q ht energyGpuSelect_nodup).tabled

omit [Field α] in
/-- A restage reads the masks and the number of slots only. -/
theorem restagedGpu_congr {m' : Method E} (hgpu : m'.gpuExpertsMask = m.gpuExpertsMask)
    (hram : m'.ramExpertsMask = m.ramExpertsMask) (hnum : m'.numGpuExperts = m.numGpuExperts) :
    restagedGpu q srt e m' = restagedGpu q srt e m := by
  have hsel : energyGpuSelect srt e m' = energyGpuSelect srt e m := by
    unfold energyGpuSelect
    rw [hgpu, hram, hnum]
  unfold restagedGpu
  rw [hsel, hgpu]

end Restage

/-! ## What a tick leaves of one layer -/

section Layer

variable {env : Env α} {q : Quant} {srt : Argsort (Fin E) α} {stores : Fin L → Finset (Fin E)}
  {ev : EnergyEvent E L α} {s : Server E L α}

/-- The layers after the moves of a tick. -/
def Server.moved (env : Env α) (ev : EnergyEvent E L α) (s : Server E L α) : Fin L → Method E :=
  energyMoves env ev (energyTodo env s ev.allE).1 s.methods

/-- The move of a promotion on its layer. -/
theorem moved_of_mem {p : Promotion E L α} (hp : p ∈ (energyTodo env s ev.allE).1) :
    EnergyMoved env (ev.ready p.layer p.promote) (ev.evict p.layer p.evict) (ev.stage p.layer p.promote)
      p.promote p.evict (s.methods p.layer) (s.moved env ev p.layer) := by
  unfold Server.moved energyMoves
  rw [modifies_of_mem energyTodo_promotions.1 hp]
  exact energyMove_spec

theorem moved_of_notMem {i : Fin L} (hi : ∀ p ∈ (energyTodo env s ev.allE).1, p.layer ≠ i) :
    s.moved env ev i = s.methods i := by
  unfold Server.moved energyMoves
  exact modifies_of_notMem hi

/-- The moves of a tick, seen from one layer. -/
theorem moved_cases (env : Env α) (ev : EnergyEvent E L α) (s : Server E L α) (i : Fin L) :
    (∃ p ∈ (energyTodo env s ev.allE).1, p.layer = i) ∨ s.moved env ev i = s.methods i := by
  by_cases hp : ∃ p ∈ (energyTodo env s ev.allE).1, p.layer = i
  · exact Or.inl hp
  · push Not at hp
    exact Or.inr (moved_of_notMem hp)

/-- Moves leave the tables of every layer alone. -/
theorem moved_sameTables (i : Fin L) : (s.methods i).SameTables (s.moved env ev i) := by
  rcases moved_cases env ev s i with ⟨p, hp, rfl⟩ | hstay
  · exact (moved_of_mem hp).tables
  · rw [hstay]
    exact ⟨rfl, rfl, rfl, rfl, rfl, rfl, rfl⟩

/-- Moves keep the RAM tier of every layer of the owning rank staged. -/
theorem moved_staged (i : Fin L) (hw : (s.methods i).Wired env) (h0 : (s.methods i).tpRank = 0)
    (hram : (s.methods i).ramExpertsMask ⊆ (s.methods i).store) :
    (s.moved env ev i).ramExpertsMask ⊆ (s.moved env ev i).store := by
  by_cases hp : ∃ p ∈ (energyTodo env s ev.allE).1, p.layer = i
  · obtain ⟨p, hp, rfl⟩ := hp
    have hnew : p.promote ∉ (s.methods p.layer).ramExpertsMask := fun h =>
      (energyTodo_promotions.2 p hp).1 (Finset.mem_union_right _ h)
    unfold Server.moved energyMoves
    rw [modifies_of_mem energyTodo_promotions.1 hp]
    exact energyMove_staged hw h0 hram hnew
  · push Not at hp
    rw [moved_of_notMem hp]
    exact hram

/-- The restages of a tick, seen from one layer. -/
theorem ktEnergyOnDecodeStep_layer (i : Fin L) :
    (ktEnergyOnDecodeStep env q srt stores s ev).methods i =
      if i ∈ (energyTodo env s ev.allE).2 then energyRestage env q srt (stores i) (ev.allE i) (s.moved env ev i)
      else s.moved env ev i := by
  show energyRestages env q srt stores ev (energyTodo env s ev.allE).2 (s.moved env ev) i = _
  unfold energyRestages
  by_cases hi : i ∈ (energyTodo env s ev.allE).2
  · rw [if_pos hi]
    refine modifies_of_mem ?_ hi
    rw [List.map_id]
    exact energyTodo_layers_nodup
  · rw [if_neg hi]
    refine modifies_of_notMem fun j hj hji => hi ?_
    obtain rfl : j = i := hji
    exact hj

theorem ktEnergyOnDecodeStep_tabled (i : Fin L) (ht : ∃ t, (s.methods i).Tabled t) :
    ∃ t, ((ktEnergyOnDecodeStep env q srt stores s ev).methods i).Tabled t := by
  have hmoved : ∃ t, (s.moved env ev i).Tabled t := ht.imp fun t => (moved_sameTables i).tabled
  rw [ktEnergyOnDecodeStep_layer]
  split
  · exact energyRestage_tabled hmoved
  · exact hmoved

/-- What a tick leaves of a layer after its moves. -/
structure EnergyTicked (env : Env α) (q : Quant) (srt : Argsort (Fin E) α) (ev : EnergyEvent E L α)
    (s : Server E L α) (i : Fin L) (m' : Method E) : Prop where
  gpuMask : m'.gpuExpertsMask =
    if i ∈ (energyTodo env s ev.allE).2 then restagedGpu q srt (ev.allE i) (s.moved env ev i)
    else (s.methods i).gpuExpertsMask
  ram : (s.moved env ev i).SameRam m'
  numGpuExperts : m'.numGpuExperts = (s.methods i).numGpuExperts
  owner : m'.wrapper.isSome = (s.moved env ev i).wrapper.isSome
  wired : (s.moved env ev i).Wired env → m'.Wired env
  seats : ∀ n, (s.methods i).Seats n → m'.Seats n

theorem ktEnergyOnDecodeStep_spec (i : Fin L) :
    EnergyTicked env q srt ev s i ((ktEnergyOnDecodeStep env q srt stores s ev).methods i) := by
  have hmoved : (s.methods i).SameTables (s.moved env ev i) := moved_sameTables i
  rw [ktEnergyOnDecodeStep_layer]
  by_cases hi : i ∈ (energyTodo env s ev.allE).2
  · rw [if_pos hi]
    have h : EnergyRestaged env q srt (ev.allE i) (s.moved env ev i)
        (energyRestage env q srt (stores i) (ev.allE i) (s.moved env ev i)) := energyRestage_spec
    exact ⟨by rw [if_pos hi]; exact h.gpuMask, h.ram, h.numGpuExperts.trans hmoved.numGpuExperts, h.owner, h.wired,
      fun n hn => h.seats n (hmoved.seats hn)⟩
  · rw [if_neg hi]
    exact ⟨by rw [if_neg hi]; exact hmoved.mask, Method.SameRam.refl _, hmoved.numGpuExperts, rfl, id,
      fun n hn => hmoved.seats hn⟩

end Layer

end ExpertServe
