import Mathlib.Data.Finset.Card
import Mathlib.Data.Int.ConditionallyCompleteOrder
import Mathlib.Data.List.Basic
import Mathlib.Data.Set.Function
import Mathlib.Order.ConditionallyCompleteLattice.Finset

/-!
# Seatings

A `Seating` puts distinct occupants into slots `0, …, n - 1`. `index` is the slot of an occupant and `-1`
for everything else, a bijection of the residents onto the slots (`bijOn_index`). `reseat` gives the slot of a departing
occupant to an arriving one and leaves every other slot alone.
-/

namespace ExpertServe.Lib

/-- Distinct occupants of the slots `0, …, n - 1`. -/
@[ext] structure Seating (ι : Type*) where
  occupants : List ι
  nodup : occupants.Nodup

namespace Seating

variable {ι : Type*} [DecidableEq ι] {t : Seating ι} {i a d : ι} {s : ℕ}

/-- The slot of an occupant, `-1` for what has no slot. -/
def index (t : Seating ι) (i : ι) : ℤ := if i ∈ t.occupants then t.occupants.idxOf i else -1

/-- The occupants as a set. -/
def residents (t : Seating ι) : Finset ι := t.occupants.toFinset

@[simp] theorem mem_residents : i ∈ t.residents ↔ i ∈ t.occupants := by simp [residents]

theorem card_residents (t : Seating ι) : t.residents.card = t.occupants.length :=
  List.toFinset_card_of_nodup t.nodup

theorem index_of_mem (h : i ∈ t.occupants) : t.index i = t.occupants.idxOf i := by
  rw [index, if_pos h]

theorem index_of_notMem (h : i ∉ t.occupants) : t.index i = -1 := by
  rw [index, if_neg h]

theorem index_nonneg_iff : 0 ≤ t.index i ↔ i ∈ t.occupants := by
  by_cases h : i ∈ t.occupants
  · rw [index_of_mem h]
    exact ⟨fun _ => h, fun _ => Int.natCast_nonneg _⟩
  · rw [index_of_notMem h]
    exact ⟨fun hneg => absurd hneg (by decide), fun hmem => absurd hmem h⟩

theorem index_lt (h : i ∈ t.occupants) : t.index i < t.occupants.length := by
  rw [index_of_mem h]
  exact_mod_cast List.idxOf_lt_length_of_mem h

/-- The slot an occupant's index names holds it. -/
theorem getElem?_index (h : i ∈ t.occupants) : t.occupants[(t.index i).toNat]? = some i := by
  rw [index_of_mem h, Int.toNat_natCast, List.getElem?_eq_getElem (List.idxOf_lt_length_of_mem h),
    List.getElem_idxOf]

/-- The occupant of a slot has that slot as its index. -/
theorem index_of_getElem? (h : t.occupants[s]? = some i) : t.index i = s := by
  obtain ⟨hlt, rfl⟩ := List.getElem?_eq_some_iff.mp h
  rw [index_of_mem (List.getElem_mem hlt), t.nodup.idxOf_getElem]

/-- **The index is a bijection of the residents onto the slots.** -/
theorem bijOn_index (t : Seating ι) :
    Set.BijOn t.index ↑t.residents (Set.Ico (0 : ℤ) t.occupants.length) := by
  refine ⟨fun i hi => ?_, fun i hi j hj hij => ?_, fun k hk => ?_⟩
  · have hi : i ∈ t.occupants := mem_residents.mp hi
    exact ⟨index_nonneg_iff.mpr hi, index_lt hi⟩
  · have hi : i ∈ t.occupants := mem_residents.mp hi
    have hj : j ∈ t.occupants := mem_residents.mp hj
    have hget := getElem?_index hi
    rw [hij, getElem?_index hj] at hget
    exact (Option.some.inj hget).symm
  · have hlt : k.toNat < t.occupants.length := by
      have := hk.1
      have := hk.2
      omega
    refine ⟨t.occupants[k.toNat], mem_residents.mpr (List.getElem_mem hlt), ?_⟩
    rw [index_of_getElem? (List.getElem?_eq_getElem hlt)]
    exact Int.toNat_of_nonneg hk.1

/-! ## One occupant for another -/

/-- Give the slot of `d` to `a`. -/
def reseat (t : Seating ι) (a d : ι) (ha : a ∉ t.occupants) : Seating ι :=
  ⟨t.occupants.set (t.occupants.idxOf d) a, t.nodup.set ha⟩

variable {ha : a ∉ t.occupants}

theorem getElem?_reseat (hd : d ∈ t.occupants) :
    (t.reseat a d ha).occupants[s]? = if t.index d = s then some a else t.occupants[s]? := by
  have hlt : t.occupants.idxOf d < t.occupants.length := List.idxOf_lt_length_of_mem hd
  rw [reseat, index_of_mem hd]
  by_cases hs : t.occupants.idxOf d = s
  · subst hs
    simp [hlt]
  · have hs' : ((t.occupants.idxOf d : ℕ) : ℤ) ≠ s := by exact_mod_cast hs
    rw [if_neg hs', List.getElem?_set_ne hs]

theorem mem_reseat (hd : d ∈ t.occupants) :
    i ∈ (t.reseat a d ha).occupants ↔ i = a ∨ (i ∈ t.occupants ∧ i ≠ d) := by
  constructor
  · intro hi
    obtain ⟨s, hs⟩ := List.mem_iff_getElem?.mp hi
    rw [getElem?_reseat hd] at hs
    by_cases hds : t.index d = s
    · rw [if_pos hds] at hs
      exact Or.inl (Option.some.inj hs).symm
    · rw [if_neg hds] at hs
      refine Or.inr ⟨List.mem_iff_getElem?.mpr ⟨s, hs⟩, fun he => ?_⟩
      exact hds (he ▸ index_of_getElem? hs)
  · rintro (rfl | ⟨hi, hne⟩)
    · refine List.mem_iff_getElem?.mpr ⟨(t.index d).toNat, ?_⟩
      rw [getElem?_reseat hd, if_pos (Int.toNat_of_nonneg (index_nonneg_iff.mpr hd)).symm]
    · refine List.mem_iff_getElem?.mpr ⟨(t.index i).toNat, ?_⟩
      rw [getElem?_reseat hd, getElem?_index hi, if_neg]
      intro he
      have hget := getElem?_index hd
      rw [he, Int.toNat_natCast, getElem?_index hi] at hget
      exact hne (Option.some.inj hget)

/-- Who is seated after a change of occupant. -/
theorem residents_reseat (hd : d ∈ t.occupants) :
    (t.reseat a d ha).residents = insert a (t.residents.erase d) := by
  ext i
  rw [mem_residents, mem_reseat hd, Finset.mem_insert, Finset.mem_erase, mem_residents]
  tauto

/-- The index after a change of occupant: the arrival has the slot of the departure, which has none, and
nobody else moves. -/
theorem index_reseat (hd : d ∈ t.occupants) :
    (t.reseat a d ha).index = Function.update (Function.update t.index d (-1)) a (t.index d) := by
  funext i
  by_cases hia : i = a
  · subst hia
    rw [Function.update_self]
    have hs := Int.toNat_of_nonneg (index_nonneg_iff.mpr hd)
    have hget : (t.reseat i d ha).occupants[(t.index d).toNat]? = some i := by
      rw [getElem?_reseat hd, if_pos hs.symm]
    rw [index_of_getElem? hget, hs]
  rw [Function.update_of_ne hia]
  by_cases hid : i = d
  · subst hid
    rw [Function.update_self]
    exact index_of_notMem fun h => by
      rcases (mem_reseat hd).mp h with h | h
      · exact hia h
      · exact h.2 rfl
  rw [Function.update_of_ne hid]
  by_cases hi : i ∈ t.occupants
  · have hs := Int.toNat_of_nonneg (index_nonneg_iff.mpr hi)
    have hget : (t.reseat a d ha).occupants[(t.index i).toNat]? = some i := by
      rw [getElem?_reseat hd, getElem?_index hi, if_neg]
      intro he
      have hget := getElem?_index hd
      rw [he, Int.toNat_natCast, getElem?_index hi] at hget
      exact hid (Option.some.inj hget)
    rw [index_of_getElem? hget, hs]
  · have hi' : i ∉ (t.reseat a d ha).occupants := fun h => by
      rcases (mem_reseat hd).mp h with h | h
      · exact hia h
      · exact hi h.1
    rw [index_of_notMem hi, index_of_notMem hi']

end Seating

end ExpertServe.Lib
