import ExpertServe.Residency.Restage

/-!
# What the full context reads of the CPU store

The scratch layer of a full context is filled by a stream out of the CPU store. Which experts the stream reads
is fixed by the quantisation, the GPU set and, for W4AFP8, the experts asked for; whether the bytes are used is
another matter, since W4AFP8 overlays the residents afterwards.

* `streamed`: the experts one stream reads;
* `load_congr`: the scratch layer depends on the store through them alone;
* `changeReads`: the experts a change of the GPU set reads, the attempt in place included;
* `changeReads_eq`: the arrivals, if the change is made in place, and else everything a full stream reads.
-/

namespace ExpertServe

open Lib

variable {E : ℕ} {α : Type*} [Field α]

/-! ## One stream -/

/-- The full context takes residents from the decode layer, and only the others from the CPU store. -/
def Quant.takesResidents : Quant → Bool
  | .int4 | .w4afp8 => false
  | _ => true

/-- The experts `SharedFullContext.load` reads out of the CPU store. -/
def streamed (q : Quant) (gpuMask : Finset (Fin E)) (onlyExperts : Option (List (Fin E))) : Finset (Fin E) :=
  match q, onlyExperts with
  | .int4, _ => Finset.univ
  | .w4afp8, some add => add.toFinset
  | .w4afp8, none => Finset.univ
  | _, _ => gpuMaskᶜ

/-- A whole stream reads every expert, or those off the GPU. -/
theorem streamed_none (q : Quant) (gpuMask : Finset (Fin E)) :
    streamed q gpuMask none = if q.takesResidents then gpuMaskᶜ else Finset.univ := by
  cases q <;> rfl

/-- Only W4AFP8 narrows a stream. -/
theorem streamed_some_of_ne {q : Quant} (hq : q ≠ .w4afp8) (gpuMask : Finset (Fin E)) (add : List (Fin E)) :
    streamed q gpuMask (some add) = streamed q gpuMask none := by
  cases q with
  | w4afp8 => exact absurd rfl hq
  | _ => rfl

/-- **What a stream reads is all the scratch layer has of the store.** -/
theorem load_congr {q : Quant} {store store' : Finset (Fin E)} {m : Method E} {onlyExperts : Option (List (Fin E))}
    (h : ∀ e ∈ streamed q m.gpuExpertsMask onlyExperts, e ∈ store ↔ e ∈ store') :
    load q store m onlyExperts = load q store' m onlyExperts := by
  have hbytes : ∀ e ∈ streamed q m.gpuExpertsMask onlyExperts, cpuBytes store e = cpuBytes store' e := fun e he => by
    unfold cpuBytes
    simp only [h e he]
  funext e
  have hoff : (e ∉ m.gpuExpertsMask → e ∈ streamed q m.gpuExpertsMask onlyExperts) →
      (if e ∈ m.gpuExpertsMask then m.residentRow e else cpuBytes store e) =
        if e ∈ m.gpuExpertsMask then m.residentRow e else cpuBytes store' e := fun hread => by
    by_cases he : e ∈ m.gpuExpertsMask
    · rw [if_pos he, if_pos he]
    · rw [if_neg he, if_neg he, hbytes e (hread he)]
  cases q with
  | int4 => exact hbytes e (Finset.mem_univ e)
  | w4afp8 =>
    cases onlyExperts with
    | none => exact hoff fun _ => Finset.mem_univ e
    | some add =>
      show (if e ∈ add then cpuBytes store e else none) = if e ∈ add then cpuBytes store' e else none
      by_cases he : e ∈ add
      · rw [if_pos he, if_pos he, hbytes e (List.mem_toFinset.mpr he)]
      · rw [if_neg he, if_neg he]
  | mxfp4 => exact hoff fun he => Finset.mem_compl.mpr he
  | fp8 => exact hoff fun he => Finset.mem_compl.mpr he
  | fp8Channel => exact hoff fun he => Finset.mem_compl.mpr he
  | bf16 => exact hoff fun he => Finset.mem_compl.mpr he

/-! ## A change of the GPU set -/

section Change

variable [LinearOrder α]

/-- The experts `_apply_expert_selection_incremental` reads: those of the context it builds, also where it only
then finds that the quantisation cannot be narrowed. -/
def incrementalReads (env : Env α) (q : Quant) (ctxBuilt : Bool) (selected : List (Fin E)) (m : Method E) :
    Finset (Fin E) :=
  if ctxBuilt ∧ q ≠ .w4afp8 then ∅
  else
    let add := whereTrue (selected.toFinset \ m.gpuExpertsMask)
    let drop := whereTrue (m.gpuExpertsMask \ selected.toFinset)
    if add = [] ∧ drop = [] then ∅
    else if add.length ≠ drop.length then ∅
    else if env.ktTierIncrementalMax < add.length then ∅
    else streamed q m.gpuExpertsMask (some add)

/-- The experts a change of the GPU set reads out of the CPU store. -/
def changeReads (env : Env α) (q : Quant) (ctxBuilt : Bool) (store : Finset (Fin E)) (incremental : Bool)
    (selected : List (Fin E)) (m : Method E) : Finset (Fin E) :=
  if (whereTrue m.gpuExpertsMask).Perm selected then ∅
  else if incremental then
    let tried := applyExpertSelectionIncremental env q ctxBuilt store selected m
    incrementalReads env q ctxBuilt selected m ∪
      (if tried.1 then ∅ else streamed q tried.2.gpuExpertsMask none)
  else streamed q m.gpuExpertsMask none

/-- The change is one `_apply_expert_selection_incremental` makes in place. -/
def SwapsInPlace (env : Env α) (q : Quant) (incremental : Bool) (selected : Finset (Fin E)) (m : Method E) : Prop :=
  q = .w4afp8 ∧ incremental = true ∧ ((selected \ m.gpuExpertsMask).card : ℤ) ≤ env.ktTierIncrementalMax

instance (env : Env α) (q : Quant) (incremental : Bool) (selected : Finset (Fin E)) (m : Method E) :
    Decidable (SwapsInPlace env q incremental selected m) := inferInstanceAs (Decidable (_ ∧ _ ∧ _))

variable (env : Env α) (q : Quant) (ctxBuilt : Bool) (store : Finset (Fin E)) {selected : List (Fin E)} {m : Method E}
  {t : Seating (Fin E)}

omit [Field α] [LinearOrder α] in
/-- A change to another set of the same size has as many arrivals as departures, and some. -/
theorem arrivals_departures {selected : List (Fin E)} {m : Method E} (hne : selected.toFinset ≠ m.gpuExpertsMask)
    (hcard : selected.toFinset.card = m.gpuExpertsMask.card) :
    (whereTrue (selected.toFinset \ m.gpuExpertsMask)).length =
        (whereTrue (m.gpuExpertsMask \ selected.toFinset)).length ∧
      ¬ (whereTrue (selected.toFinset \ m.gpuExpertsMask) = [] ∧
        whereTrue (m.gpuExpertsMask \ selected.toFinset) = []) := by
  constructor
  · rw [length_whereTrue, length_whereTrue]
    exact Finset.card_sdiff_comm hcard
  · exact moved_of_ne hne

/-- A change to another set of the same size is made in place exactly if W4AFP8 and the limit allow it. -/
theorem applyExpertSelectionIncremental_accepts (ht : m.Tabled t) (hne : selected.toFinset ≠ m.gpuExpertsMask)
    (hcard : selected.toFinset.card = m.gpuExpertsMask.card) :
    (applyExpertSelectionIncremental env q ctxBuilt store selected m).1 = true ↔
      SwapsInPlace env q true selected.toFinset m := by
  by_cases hq : q = .w4afp8
  swap
  · rcases applyExpertSelectionIncremental_spec env q ctxBuilt store ht hne with h | ⟨_, _, hq', -⟩
    · rw [h]
      exact ⟨fun h => absurd h Bool.false_ne_true, fun h => absurd h.1 hq⟩
    · exact absurd hq' hq
  obtain ⟨hlen, hmoved⟩ := arrivals_departures hne hcard
  unfold applyExpertSelectionIncremental SwapsInPlace
  rw [if_neg fun h => h.2 hq]
  dsimp only
  rw [if_neg hmoved, if_neg (not_not.mpr hlen), length_whereTrue]
  by_cases hmax : env.ktTierIncrementalMax < ((selected.toFinset \ m.gpuExpertsMask).card : ℤ)
  · rw [if_pos hmax]
    exact ⟨fun h => absurd h Bool.false_ne_true, fun h => absurd h.2.2 (not_le.mpr hmax)⟩
  rw [if_neg hmax, if_neg (not_not.mpr hq)]
  obtain ⟨slots, t', heq, -⟩ := swapInPlace_spec env
    (load q store m (some (whereTrue (selected.toFinset \ m.gpuExpertsMask)))) ht (whereTrue_nodup _)
    (whereTrue_nodup _) hlen ht.arrivals_notMem ht.departures_mem
  rw [heq]
  exact ⟨fun _ => ⟨hq, rfl, not_lt.mp hmax⟩, fun _ => rfl⟩

omit [LinearOrder α] in
/-- An attempt in place reads the arrivals; one that comes to nothing reads no more than a full stream. -/
theorem incrementalReads_cases (hne : selected.toFinset ≠ m.gpuExpertsMask)
    (hcard : selected.toFinset.card = m.gpuExpertsMask.card) :
    (SwapsInPlace env q true selected.toFinset m →
        incrementalReads env q ctxBuilt selected m = selected.toFinset \ m.gpuExpertsMask) ∧
      (¬ SwapsInPlace env q true selected.toFinset m →
        incrementalReads env q ctxBuilt selected m ⊆ streamed q m.gpuExpertsMask none) := by
  obtain ⟨hlen, hmoved⟩ := arrivals_departures hne hcard
  unfold incrementalReads
  dsimp only
  rw [if_neg hmoved, if_neg (not_not.mpr hlen), length_whereTrue]
  constructor
  · rintro ⟨hq, -, hmax⟩
    rw [if_neg fun h => h.2 hq, if_neg (not_lt.mpr hmax), hq]
    exact whereTrue_toFinset _
  · intro hnot
    split
    · exact Finset.empty_subset _
    split
    · exact Finset.empty_subset _
    · next hmax =>
      have hq : q ≠ .w4afp8 := fun hq => hnot ⟨hq, rfl, not_lt.mp hmax⟩
      exact (streamed_some_of_ne hq _ _).subset

/-- **What a change of the GPU set reads**: nothing if there is nothing to change, the arrivals if it is made in
place, and else everything a full stream reads. -/
theorem changeReads_eq (incremental : Bool) (ht : m.Tabled t) (hnodup : selected.Nodup)
    (hcard : selected.toFinset.card = m.gpuExpertsMask.card) :
    changeReads env q ctxBuilt store incremental selected m =
      if selected.toFinset = m.gpuExpertsMask then ∅
      else if SwapsInPlace env q incremental selected.toFinset m then selected.toFinset \ m.gpuExpertsMask
      else streamed q m.gpuExpertsMask none := by
  unfold changeReads
  by_cases hsame : selected.toFinset = m.gpuExpertsMask
  · rw [if_pos ((whereTrue_perm_iff hnodup).mpr hsame), if_pos hsame]
  rw [if_neg ((whereTrue_perm_iff hnodup).not.mpr hsame), if_neg hsame]
  cases incremental with
  | false =>
    rw [if_neg Bool.false_ne_true, if_neg fun h => Bool.false_ne_true h.2.1]
  | true =>
    have haccepts := applyExpertSelectionIncremental_accepts env q ctxBuilt store ht hsame hcard
    obtain ⟨hplace, hfull⟩ := incrementalReads_cases env q ctxBuilt hsame hcard
    rw [if_pos rfl]
    dsimp only
    by_cases hin : SwapsInPlace env q true selected.toFinset m
    · rw [if_pos (haccepts.mpr hin), if_pos hin, hplace hin, Finset.union_empty]
    · have hdeclined : applyExpertSelectionIncremental env q ctxBuilt store selected m = (false, m) := by
        rcases applyExpertSelectionIncremental_spec env q ctxBuilt store ht hsame with h | ⟨slots, t', -, h, -⟩
        · exact h
        · exact absurd (haccepts.mp (by rw [h])) hin
      rw [hdeclined, if_neg Bool.false_ne_true, if_neg hin]
      exact Finset.union_eq_right.mpr (hfull hin)

end Change

end ExpertServe
