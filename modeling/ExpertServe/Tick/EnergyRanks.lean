import ExpertServe.Tick.Energy
import Mathlib.Data.Fin.VecNotation

/-!
# The energy tick over tensor-parallel ranks

Every rank takes the same decision from its own masks and the energies, which the ranks share; only rank 0
owns the CPU store and the prefetcher, so only rank 0 can skip a move or see one fail.

* `SameMasks`: all ranks hold equal RAM masks and equal GPU masks for every layer;
* `energyTicks_sameMasks`: a run from a common start keeps the masks equal exactly when there is one rank, or
  every move of every tick finds its weights ready and both its calls into the store return.
-/

namespace ExpertServe

open Lib

variable {E L R : ℕ} {α : Type*} [Field α] [LinearOrder α]

/-- One tick on every rank. The other ranks stream from the stores of rank 0, as its moves leave them. -/
def energyTick (env : Env α) (q : Quant) (srt : Argsort (Fin E) α) (w : Fin (R + 1) → Server E L α)
    (ev : EnergyEvent E L α) : Fin (R + 1) → Server E L α := fun r =>
  ktEnergyOnDecodeStep env q srt (fun i => ((w 0).moved env ev i).store) (w r) ev

/-- All ranks hold equal masks. -/
def SameMasks (w : Fin (R + 1) → Server E L α) : Prop :=
  ∀ r i, ((w r).methods i).gpuExpertsMask = ((w 0).methods i).gpuExpertsMask ∧
    ((w r).methods i).ramExpertsMask = ((w 0).methods i).ramExpertsMask

/-- The ranks of one server: numbered, in the same energy step, with the same number of slots, and the CPU
store on rank 0. -/
structure OneServer (w : Fin (R + 1) → Server E L α) : Prop where
  tpRank : ∀ r i, ((w r).methods i).tpRank = r
  energyStep : ∀ r, (w r).energyStep = (w 0).energyStep
  numGpuExperts : ∀ r i, ((w r).methods i).numGpuExperts = ((w 0).methods i).numGpuExperts
  owner : ∀ i, ((w 0).methods i).wrapper.isSome

/-- There is one rank, or every move of the tick finds its weights ready on rank 0 and both its calls into
the store return. -/
def MovesSucceed (env : Env α) (w : Fin (R + 1) → Server E L α) (ev : EnergyEvent E L α) : Prop :=
  R = 0 ∨ ∀ p ∈ (energyTodo env (w 0) ev.allE).1,
    ev.ready p.layer p.promote ∧ ev.evict p.layer p.evict = .ok ∧ ev.stage p.layer p.promote = .ok

section Tick

variable {env : Env α} {q : Quant} {srt : Argsort (Fin E) α} {w : Fin (R + 1) → Server E L α}
  {ev : EnergyEvent E L α}

/-- Ranks with equal masks set out to do the same. -/
theorem energyTodo_sameMasks (hw : OneServer w) (hsame : SameMasks w) (r : Fin (R + 1)) :
    energyTodo env (w r) ev.allE = energyTodo env (w 0) ev.allE :=
  energyTodo_congr (hw.energyStep r) (fun i => (hsame r i).1) fun i => (hsame r i).2

/-- A rank without the store carries out every move. -/
theorem moved_ramMask_other (hw : OneServer w) {r : Fin (R + 1)} (hr : r ≠ 0) {p : Promotion E L α}
    (hp : p ∈ (energyTodo env (w r) ev.allE).1) :
    ((w r).moved env ev p.layer).ramExpertsMask =
      insert p.promote (((w r).methods p.layer).ramExpertsMask.erase p.evict) := by
  have hrank : ((w r).methods p.layer).tpRank ≠ 0 := by
    rw [hw.tpRank r p.layer]
    exact fun h => hr (Fin.ext h)
  rw [(moved_of_mem hp).ramMask, if_neg fun h => hrank h.1, if_neg fun h => hrank h.1]

/-- On rank 0 a move advertises its expert exactly when it succeeds. -/
theorem promote_mem_moved_iff (hw : OneServer w) {p : Promotion E L α}
    (hp : p ∈ (energyTodo env (w 0) ev.allE).1) :
    p.promote ∈ ((w 0).moved env ev p.layer).ramExpertsMask ↔
      ev.ready p.layer p.promote ∧ ev.evict p.layer p.evict = .ok ∧ ev.stage p.layer p.promote = .ok := by
  have hout : p.promote ∉ ((w 0).methods p.layer).ramExpertsMask := fun h =>
    (energyTodo_promotions.2 p hp).1 (Finset.mem_union_right _ h)
  have hrank : ((w 0).methods p.layer).tpRank = 0 := hw.tpRank 0 p.layer
  rw [(moved_of_mem hp).ramMask]
  by_cases hready : ev.ready p.layer p.promote = true
  swap
  · rw [if_pos ⟨hrank, hready⟩]
    exact ⟨fun h => absurd h hout, fun h => absurd h.1 hready⟩
  rw [if_neg fun h => h.2 hready]
  by_cases hstore : ev.evict p.layer p.evict = .ok ∧ ev.stage p.layer p.promote = .ok
  · rw [if_neg fun h => h.2.2 hstore]
    exact ⟨fun _ => ⟨hready, hstore⟩, fun _ => Finset.mem_insert_self _ _⟩
  · rw [if_pos ⟨hrank, hw.owner p.layer, hstore⟩]
    exact ⟨fun h => absurd (Finset.mem_of_mem_erase h) hout, fun h => absurd h.2 hstore⟩

/-- When every move succeeds the ranks move their RAM masks alike. -/
theorem moved_ramMask_eq (hw : OneServer w) (hsame : SameMasks w) (hok : MovesSucceed env w ev) (r : Fin (R + 1))
    (i : Fin L) : ((w r).moved env ev i).ramExpertsMask = ((w 0).moved env ev i).ramExpertsMask := by
  have htodo : energyTodo env (w r) ev.allE = energyTodo env (w 0) ev.allE := energyTodo_sameMasks hw hsame r
  by_cases hr : r = 0
  · rw [hr]
  have hR : R ≠ 0 := fun h => by
    subst h
    exact hr (Fin.eq_zero r)
  by_cases hp : ∃ p ∈ (energyTodo env (w 0) ev.allE).1, p.layer = i
  · obtain ⟨p, hp, rfl⟩ := hp
    obtain ⟨hready, hstore⟩ := hok.resolve_left hR p hp
    rw [moved_ramMask_other hw hr (htodo ▸ hp), (moved_of_mem hp).ramMask, if_neg fun h => h.2 hready,
      if_neg fun h => h.2.2 hstore, (hsame r p.layer).2]
  · push Not at hp
    rw [moved_of_notMem hp, moved_of_notMem (htodo ▸ hp), (hsame r i).2]

theorem energyTick_oneServer (hw : OneServer w) : OneServer (energyTick env q srt w ev) where
  tpRank r i := by
    have hspec : EnergyTicked env q srt ev (w r) i ((energyTick env q srt w ev r).methods i) :=
      ktEnergyOnDecodeStep_spec i
    rw [hspec.ram.tpRank]
    rcases moved_cases env ev (w r) i with ⟨p, hp, rfl⟩ | hstay
    · exact (moved_of_mem hp).tpRank.trans (hw.tpRank r p.layer)
    · rw [hstay, hw.tpRank]
  energyStep r := by
    show (if _ then (w r).energyStep + 1 else (w r).energyStep) =
      if _ then (w 0).energyStep + 1 else (w 0).energyStep
    rw [hw.energyStep r]
  numGpuExperts r i := by
    have hspec : ∀ r, EnergyTicked env q srt ev (w r) i ((energyTick env q srt w ev r).methods i) :=
      fun r => ktEnergyOnDecodeStep_spec i
    rw [(hspec r).numGpuExperts, (hspec 0).numGpuExperts, hw.numGpuExperts]
  owner i := by
    have hspec : EnergyTicked env q srt ev (w 0) i ((energyTick env q srt w ev 0).methods i) :=
      ktEnergyOnDecodeStep_spec i
    rw [hspec.owner]
    rcases moved_cases env ev (w 0) i with ⟨p, hp, rfl⟩ | hstay
    · rw [(moved_of_mem hp).owner]
      exact hw.owner p.layer
    · rw [hstay]
      exact hw.owner i

/-- **One tick of ranks with equal masks leaves the masks equal exactly when its moves succeed.** -/
theorem energyTick_sameMasks_iff (hw : OneServer w) (hsame : SameMasks w) :
    SameMasks (energyTick env q srt w ev) ↔ MovesSucceed env w ev := by
  have hspec : ∀ r i, EnergyTicked env q srt ev (w r) i ((energyTick env q srt w ev r).methods i) :=
    fun r i => ktEnergyOnDecodeStep_spec i
  have htodo : ∀ r, energyTodo env (w r) ev.allE = energyTodo env (w 0) ev.allE := energyTodo_sameMasks hw hsame
  constructor
  · intro hsame'
    by_cases hR : R = 0
    · exact Or.inl hR
    refine Or.inr fun p hp => ?_
    have hlast : Fin.last R ≠ 0 := fun h => hR (by simpa using congrArg Fin.val h)
    -- the last rank advertises the promoted expert, so rank 0 must
    have hram := (hsame' (Fin.last R) p.layer).2
    rw [(hspec _ p.layer).ram.ramMask, (hspec 0 p.layer).ram.ramMask,
      moved_ramMask_other hw hlast (htodo (Fin.last R) ▸ hp)] at hram
    refine (promote_mem_moved_iff hw hp).mp ?_
    rw [← hram]
    exact Finset.mem_insert_self _ _
  · intro hok r i
    have hram := moved_ramMask_eq hw hsame hok r i
    have hgpu : ((w r).moved env ev i).gpuExpertsMask = ((w 0).moved env ev i).gpuExpertsMask := by
      rw [(moved_sameTables i).mask, (moved_sameTables i).mask, (hsame r i).1]
    have hnum : ((w r).moved env ev i).numGpuExperts = ((w 0).moved env ev i).numGpuExperts := by
      rw [(moved_sameTables i).numGpuExperts, (moved_sameTables i).numGpuExperts, hw.numGpuExperts r i]
    refine ⟨?_, ?_⟩
    · rw [(hspec r i).gpuMask, (hspec 0 i).gpuMask, htodo r, restagedGpu_congr hgpu hram hnum, (hsame r i).1]
    · rw [(hspec r i).ram.ramMask, (hspec 0 i).ram.ramMask, hram]

end Tick

/-- **Tensor-parallel lockstep of the energy tick.** From any common start, over any number of ranks, with any
energies, any pattern of ready prefetches and any failing calls into the store, the ranks hold equal masks
after every call exactly when there is one rank or every move of every tick succeeds. -/
theorem energyTicks_sameMasks (env : Env α) (q : Quant) (srt : Argsort (Fin E) α) {w : Fin (R + 1) → Server E L α}
    (hw : OneServer w) (hsame : SameMasks w) (evs : List (EnergyEvent E L α)) :
    StatesHold (energyTick env q srt) SameMasks w evs ↔
      StepsMeet (energyTick env q srt) (MovesSucceed env) w evs :=
  statesHold_iff_stepsMeet (I := OneServer) (fun _ _ hI _ _ => energyTick_oneServer hI)
    (fun _ _ hI hP => energyTick_sameMasks_iff hI hP) hw hsame evs

omit [LinearOrder α] in
/-- The ranks of a server after boot are one server with equal masks. -/
theorem boot_oneServer (env : Env α) (adaptive : Bool) (ranking : Fin L → Option (List (Fin E)))
    (gpuMask : Fin L → Finset (Fin E)) :
    OneServer (fun r : Fin (R + 1) => Server.boot env adaptive ranking gpuMask r) ∧
      SameMasks (fun r : Fin (R + 1) => Server.boot env adaptive ranking gpuMask r) :=
  ⟨⟨fun _ _ => rfl, fun _ => rfl, fun _ _ => rfl, fun _ => rfl⟩, fun _ _ => ⟨rfl, rfl⟩⟩

/-- A RAM tier of one expert with the energy mover on, and one decode step between ticks. -/
def energyOneInRam : Env ℚ := { Env.unset with ktRamExperts := 1, ktEnergy := true, ktEnergyPeriod := 1 }

/-- Expert 3 surges while it is on disk. -/
def surgeThree (ready : Bool) : EnergyEvent 4 1 ℚ where
  allE _ := ![1, 1, 0, 8]
  ready _ _ := ready
  evict _ _ := .ok
  stage _ _ := .ok

theorem energyTicks_sameMasks_surgeThree :
    StatesHold (energyTick energyOneInRam .w4afp8 Argsort.stable) SameMasks
      (fun r : Fin 2 => Server.boot energyOneInRam true (fun _ => none) (fun _ => {0, 1}) r)
      [surgeThree true] := by
  obtain ⟨hserver, hsame⟩ := boot_oneServer (R := 1) energyOneInRam true (fun _ => none) (L := 1) (E := 4)
    (fun _ => {0, 1})
  refine (energyTicks_sameMasks energyOneInRam .w4afp8 Argsort.stable hserver hsame [surgeThree true]).mpr ?_
  exact ⟨Or.inr fun _ _ => ⟨rfl, rfl, rfl⟩, trivial⟩

/-- A prefetch that is not ready on rank 0 leaves expert 3 in the RAM mask of rank 1 and not in that of
rank 0, where expert 2 stays. -/
theorem missed_prefetch_splits :
    ¬ StatesHold (energyTick energyOneInRam .w4afp8 Argsort.stable) SameMasks
      (fun r : Fin 2 => Server.boot energyOneInRam true (fun _ => none) (fun _ => {0, 1}) r)
      [surgeThree false] := by
  intro h
  have hram := (h.2 1 0).2
  revert hram
  decide +kernel

end ExpertServe
