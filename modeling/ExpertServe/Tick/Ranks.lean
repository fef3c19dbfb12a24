import ExpertServe.Tick.Tier
import Mathlib.Data.Fin.VecNotation

/-!
# The dynamic tier over tensor-parallel ranks

Every rank holds its own copy of the masks. Rank 0 decides and broadcasts; the others allocate the buffers
they receive into from their own masks, and only rank 0 moves bytes, so only rank 0 sees a promotion fail.

* `Agreed`: all ranks hold the same masks, and the buffers they would allocate for the next decision have the
  size rank 0 would send;
* `tierTicks_agree`: a run from boot keeps the ranks agreed exactly when there is one rank or no attempted
  promotion fails.
-/

namespace ExpertServe

open Lib

variable {E : ℕ} {α : Type*} [Field α] [LinearOrder α]

/-- A broadcast of index lists: what a rank receives that offers a buffer of `n` entries. A buffer of the
size sent receives what was sent. -/
structure Broadcast (E : ℕ) where
  recv : List (Fin E) → ℕ → List (Fin E)
  recv_length : ∀ l, recv l l.length = l

/-- A broadcast that cuts or pads with zeros, as reading a buffer of the wrong size may. -/
def Broadcast.padded (E : ℕ) : Broadcast (E + 1) where
  recv l n := l.take n ++ List.replicate (n - l.length) 0
  recv_length l := by simp

/-- One tick on every rank. The other ranks stream from the store of rank 0. -/
def tierTick {R : ℕ} (env : Env α) (q : Quant) (srt : Argsort (Fin E) α) (bc : Broadcast E)
    (w : Fin (R + 1) → Method E) (ev : TierEvent E α) : Fin (R + 1) → Method E := fun r =>
  let selGpu := whereTrue (tierPlan env srt ev (w 0)).1
  let selRam := whereTrue (tierPlan env srt ev (w 0)).2
  if r = 0 then tierApply env q ev (w 0).store selGpu selRam (w 0)
  else
    tierApply env q ev (w 0).store (bc.recv selGpu (w r).numGpuExperts)
      (bc.recv selRam (w r).ramExpertsMask.card) (w r)

/-- The ranks after boot. -/
def bootRanks (env : Env α) (adaptive : Bool) (ranking : Option (List (Fin E))) (gpuMask : Finset (Fin E))
    (R : ℕ) : Fin (R + 1) → Method E := fun r => Method.boot env adaptive ranking r gpuMask

/-- The ranks hold the same masks, and whatever rank 0 decides next fits the buffers the others allocate. -/
structure Agreed {R : ℕ} (env : Env α) (srt : Argsort (Fin E) α) (w : Fin (R + 1) → Method E) : Prop where
  gpu : ∀ r, (w r).gpuExpertsMask = (w 0).gpuExpertsMask
  ram : ∀ r, (w r).ramExpertsMask = (w 0).ramExpertsMask
  gpuFits : ∀ (ev : TierEvent E α) r, (w r).numGpuExperts = (whereTrue (tierPlan env srt ev (w 0)).1).length
  ramFits : ∀ (ev : TierEvent E α) r,
    (w r).ramExpertsMask.card = (whereTrue (tierPlan env srt ev (w 0)).2).length

/-- The experts a tick tries to promote: the newcomers of the RAM tier, unless the GPU copy raises first. -/
def attempted (env : Env α) (q : Quant) (srt : Argsort (Fin E) α) (m : Method E) (ev : TierEvent E α) :
    Finset (Fin E) :=
  if q = .mxfp4 ∧ (tierPlan env srt ev m).1 ≠ m.gpuExpertsMask then ∅
  else (tierPlan env srt ev m).2 \ m.ramExpertsMask

/-- There is one rank, or every promotion the tick attempts succeeds. -/
def PromotionsSucceed {R : ℕ} (env : Env α) (q : Quant) (srt : Argsort (Fin E) α) (w : Fin (R + 1) → Method E)
    (ev : TierEvent E α) : Prop :=
  R = 0 ∨ ∀ e ∈ attempted env q srt (w 0) ev, ev.promote e = .ok

/-- What holds of the ranks between ticks, agreed or not. -/
structure RanksOk {R : ℕ} (env : Env α) (n : ℕ) (w : Fin (R + 1) → Method E) : Prop where
  seats : ∀ r, (w r).Seats n
  wired : ∀ r, (w r).Wired env
  tpRank : ∀ r, (w r).tpRank = r
  disjoint : Disjoint (w 0).gpuExpertsMask (w 0).ramExpertsMask

section Tick

variable {R : ℕ} {env : Env α} {srt : Argsort (Fin E) α} {n : ℕ} {w : Fin (R + 1) → Method E}

omit [LinearOrder α] in
theorem bootRanks_ok (adaptive : Bool) (ranking : Option (List (Fin E))) (gpuMask : Finset (Fin E)) :
    RanksOk env gpuMask.card (bootRanks env adaptive ranking gpuMask R) where
  seats r := Method.boot_seats env adaptive ranking r gpuMask
  wired r := Method.boot_wired env adaptive ranking r gpuMask
  tpRank _ := rfl
  disjoint := Method.boot_disjoint env adaptive ranking 0 gpuMask

/-- Ranks with equal masks are agreed: the sizes of the tiers never change by a decision. -/
theorem agreed_of_masks (hw : RanksOk env n w) (hgpu : ∀ r, (w r).gpuExpertsMask = (w 0).gpuExpertsMask)
    (hram : ∀ r, (w r).ramExpertsMask = (w 0).ramExpertsMask) : Agreed env srt w where
  gpu := hgpu
  ram := hram
  gpuFits ev r := by
    obtain ⟨t, -, -, hnum⟩ := hw.seats r
    rw [hnum, length_whereTrue, card_tierPlan_fst hw.disjoint, (hw.seats 0).card_mask]
  ramFits ev r := by
    rw [hram r, length_whereTrue, card_tierPlan_snd hw.disjoint]

/-- What a tick of agreed ranks leaves on each of them. -/
theorem tierTick_applied (q : Quant) (bc : Broadcast E) (ev : TierEvent E α) (hw : RanksOk env n w)
    (hagree : Agreed env srt w) (r : Fin (R + 1)) :
    TierApplied env q ev (w 0).store (whereTrue (tierPlan env srt ev (w 0)).1)
      (whereTrue (tierPlan env srt ev (w 0)).2) n (w r) (tierTick env q srt bc w ev r) := by
  have hlen : (whereTrue (tierPlan env srt ev (w 0)).1).length = n := by
    rw [length_whereTrue, card_tierPlan_fst hw.disjoint, (hw.seats 0).card_mask]
  unfold tierTick
  dsimp only
  by_cases hr : r = 0
  · subst hr
    rw [if_pos rfl]
    exact tierApply_spec (hw.seats 0) (hw.wired 0) (whereTrue_nodup _) hlen
  · rw [if_neg hr, hagree.gpuFits ev r, hagree.ramFits ev r, bc.recv_length, bc.recv_length]
    exact tierApply_spec (hw.seats r) (hw.wired r) (whereTrue_nodup _) hlen

theorem tierTick_ok (q : Quant) (bc : Broadcast E) (ev : TierEvent E α) (hw : RanksOk env n w)
    (hagree : Agreed env srt w) :
    RanksOk env n (tierTick env q srt bc w ev) where
  seats r := (tierTick_applied q bc ev hw hagree r).seats
  wired r := (tierTick_applied q bc ev hw hagree r).wired
  tpRank r := (tierTick_applied q bc ev hw hagree r).tpRank.trans (hw.tpRank r)
  disjoint := disjoint_of_applied q srt ev hw.disjoint (tierTick_applied q bc ev hw hagree 0)

theorem advertised_eq_iff {old new : Finset (Fin E)} {promote : Fin E → Outcome} :
    advertised old new promote = new ↔ ∀ e ∈ new \ old, promote e = .ok := by
  unfold advertised
  rw [Finset.filter_eq_self]
  simp only [Finset.mem_sdiff, and_imp]

/-- The masks a tick of agreed ranks leaves on a rank, in terms of those of rank 0. -/
theorem tierTick_masks (q : Quant) (bc : Broadcast E) (ev : TierEvent E α) (hw : RanksOk env n w)
    (hagree : Agreed env srt w) (r : Fin (R + 1)) :
    (tierTick env q srt bc w ev r).gpuExpertsMask =
      (if q = .mxfp4 then (w 0).gpuExpertsMask else (tierPlan env srt ev (w 0)).1) ∧
    (tierTick env q srt bc w ev r).ramExpertsMask =
      if q = .mxfp4 ∧ (tierPlan env srt ev (w 0)).1 ≠ (w 0).gpuExpertsMask then (w 0).ramExpertsMask
      else if r = 0 then advertised (w 0).ramExpertsMask (tierPlan env srt ev (w 0)).2 ev.promote
      else (tierPlan env srt ev (w 0)).2 := by
  have h := tierTick_applied q bc ev hw hagree r
  have hrank : (w r).tpRank = 0 ↔ r = 0 := by
    rw [hw.tpRank r]
    exact Fin.val_eq_zero_iff
  rw [h.gpuMask, h.ramMask, hagree.gpu r, hagree.ram r, whereTrue_toFinset, whereTrue_toFinset]
  simp only [hrank, and_self]

/-- **One tick of agreed ranks leaves them agreed exactly when its promotions succeed.** -/
theorem tierTick_agreed_iff (q : Quant) (bc : Broadcast E) (ev : TierEvent E α) (hw : RanksOk env n w)
    (hagree : Agreed env srt w) :
    Agreed env srt (tierTick env q srt bc w ev) ↔ PromotionsSucceed env q srt w ev := by
  have hmasks := tierTick_masks q bc ev hw hagree
  constructor
  · intro hagree'
    by_cases hR : R = 0
    · exact Or.inl hR
    refine Or.inr fun e he => ?_
    have hlast : Fin.last R ≠ 0 := fun h => hR (by simpa using congrArg Fin.val h)
    unfold attempted at he
    by_cases hstuck : q = .mxfp4 ∧ (tierPlan env srt ev (w 0)).1 ≠ (w 0).gpuExpertsMask
    · rw [if_pos hstuck] at he
      exact absurd he (Finset.notMem_empty e)
    · rw [if_neg hstuck] at he
      have hram := hagree'.ram (Fin.last R)
      rw [(hmasks (Fin.last R)).2, (hmasks 0).2, if_neg hstuck, if_neg hstuck, if_neg hlast, if_pos rfl] at hram
      exact advertised_eq_iff.mp hram.symm e he
  · intro hok
    refine agreed_of_masks (tierTick_ok q bc ev hw hagree) (fun r => by rw [(hmasks r).1, (hmasks 0).1]) fun r => ?_
    rw [(hmasks r).2, (hmasks 0).2, if_pos rfl]
    by_cases hstuck : q = .mxfp4 ∧ (tierPlan env srt ev (w 0)).1 ≠ (w 0).gpuExpertsMask
    · rw [if_pos hstuck, if_pos hstuck]
    rw [if_neg hstuck, if_neg hstuck]
    by_cases hr : r = 0
    · rw [if_pos hr]
    rw [if_neg hr]
    refine (advertised_eq_iff.mpr fun e he => ?_).symm
    rcases hok with hR | hok
    · subst hR
      exact absurd (Fin.eq_zero r) hr
    · refine hok e ?_
      unfold attempted
      rwa [if_neg hstuck]

end Tick

/-- **Tensor-parallel agreement of the tier tick.** From boot, over any number of ranks, with any demand on
rank 0 and any failing calls into the store, the ranks agree after every tick exactly when there is one rank
or no promotion a tick attempts fails. -/
theorem tierTicks_agree {R : ℕ} (env : Env α) (q : Quant) (srt : Argsort (Fin E) α) (bc : Broadcast E)
    (adaptive : Bool) (ranking : Option (List (Fin E))) (gpuMask : Finset (Fin E)) (evs : List (TierEvent E α)) :
    StatesHold (tierTick env q srt bc) (Agreed env srt) (bootRanks env adaptive ranking gpuMask R) evs ↔
      StepsMeet (tierTick env q srt bc) (PromotionsSucceed env q srt)
        (bootRanks env adaptive ranking gpuMask R) evs := by
  have hboot : RanksOk env gpuMask.card (bootRanks env adaptive ranking gpuMask R) :=
    bootRanks_ok adaptive ranking gpuMask
  refine statesHold_iff_stepsMeet (I := RanksOk env gpuMask.card) (fun w ev hI hP _ => tierTick_ok q bc ev hI hP)
    (fun w ev hI hP => tierTick_agreed_iff q bc ev hI hP) hboot ?_ evs
  exact agreed_of_masks hboot (fun _ => rfl) fun _ => rfl

/-- A RAM tier of one expert, with demand on an expert that is on disk. -/
def wantThree (promote : Outcome) : TierEvent 4 ℚ where
  counts := ![100, 100, 1, 100]
  frozen := false
  ctxBuilt := true
  evict := fun _ => .ok
  promote := fun _ => promote

/-- A failing promotion on rank 0 leaves rank 1 with expert 3 in its RAM mask, and rank 0 without. -/
theorem failed_promotion_splits :
    ¬ StatesHold (tierTick oneInRam .w4afp8 Argsort.stable (Broadcast.padded 3))
      (Agreed oneInRam Argsort.stable) (bootRanks oneInRam true none {0, 1} 1) [wantThree (.raised false)] := by
  intro h
  have hram := h.2.ram 1
  revert hram
  decide +kernel

end ExpertServe
