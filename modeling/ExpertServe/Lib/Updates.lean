import Mathlib.Data.List.Nodup
import Mathlib.Logic.Function.Basic

/-!
# Point updates of a function, one after the other

`modifies f key g ps` goes through a list and changes the value at the key of each entry; `updates f ps`
writes the value of each pair at its key. With distinct keys each key sees exactly its own change
(`modifies_of_mem`), and a key that no entry names keeps the value it had.

* `modifies_eq_foldl`: what a key sees when several entries name it;
* `updates_of_agree`: a key that several entries name, all with one value;
* `updates_idle`: writing the values that are there changes nothing;
* `updates_row`: the row of a table after updates of its entries is the row after those in it;
* `foldlM_update_ok`: a loop of replacements that may fail.
-/

namespace ExpertServe.Lib

variable {κ β ρ : Type*} [DecidableEq κ]

/-- Change the value at the key of each entry, in order. -/
def modifies (f : κ → β) (key : ρ → κ) (g : ρ → β → β) (ps : List ρ) : κ → β :=
  ps.foldl (fun f p => Function.update f (key p) (g p (f (key p)))) f

section Modifies

variable {f : κ → β} {key : ρ → κ} {g : ρ → β → β} {ps : List ρ} {k : κ}

theorem modifies_cons {p : ρ} :
    modifies f key g (p :: ps) = modifies (Function.update f (key p) (g p (f (key p)))) key g ps := rfl

theorem modifies_of_notMem (h : ∀ p ∈ ps, key p ≠ k) : modifies f key g ps k = f k := by
  induction ps generalizing f with
  | nil => rfl
  | cons p ps ih =>
    have hk : k ≠ key p := (h p List.mem_cons_self).symm
    rw [modifies_cons, ih fun q hq => h q (List.mem_cons_of_mem _ hq), Function.update_of_ne hk]

theorem modifies_of_mem (hnodup : (ps.map key).Nodup) {p : ρ} (hp : p ∈ ps) :
    modifies f key g ps (key p) = g p (f (key p)) := by
  induction ps generalizing f with
  | nil => exact absurd hp List.not_mem_nil
  | cons q ps ih =>
    rw [List.map_cons, List.nodup_cons] at hnodup
    rw [modifies_cons]
    rcases List.mem_cons.mp hp with rfl | hmem
    · rw [modifies_of_notMem, Function.update_self]
      exact fun r hr he => hnodup.1 (List.mem_map.mpr ⟨r, hr, he⟩)
    · have hne : key p ≠ key q := fun he => hnodup.1 (List.mem_map.mpr ⟨p, hmem, he⟩)
      rw [ih hnodup.2 hmem, Function.update_of_ne hne]

/-- A key sees the changes of its own entries, in order. -/
theorem modifies_eq_foldl :
    modifies f key g ps k = (ps.filter fun p => key p = k).foldl (fun v p => g p v) (f k) := by
  induction ps generalizing f with
  | nil => rfl
  | cons p ps ih =>
    rw [modifies_cons, ih]
    by_cases hp : key p = k
    · rw [List.filter_cons_of_pos (by simpa using hp), List.foldl_cons, ← hp, Function.update_self]
    · rw [List.filter_cons_of_neg (by simpa using hp), Function.update_of_ne (Ne.symm hp)]

end Modifies

/-- Write the value of each pair at its key, in order. -/
def updates (f : κ → β) (ps : List (κ × β)) : κ → β := modifies f Prod.fst (fun p _ => p.2) ps

section Updates

variable {f : κ → β} {ps : List (κ × β)} {k : κ}

theorem updates_cons {p : κ × β} : updates f (p :: ps) = updates (Function.update f p.1 p.2) ps := rfl

theorem updates_of_notMem (h : ∀ p ∈ ps, p.1 ≠ k) : updates f ps k = f k := modifies_of_notMem h

theorem updates_of_mem (hnodup : (ps.map Prod.fst).Nodup) {p : κ × β} (hp : p ∈ ps) :
    updates f ps p.1 = p.2 := modifies_of_mem hnodup hp

/-- A key whose entries all have one value ends with that value. -/
theorem updates_of_agree {b : β} (hkey : ∃ p ∈ ps, p.1 = k) (h : ∀ p ∈ ps, p.1 = k → p.2 = b) :
    updates f ps k = b := by
  induction ps generalizing f with
  | nil =>
    obtain ⟨p, hp, -⟩ := hkey
    exact absurd hp List.not_mem_nil
  | cons p ps ih =>
    rw [updates_cons]
    by_cases hrest : ∃ q ∈ ps, q.1 = k
    · exact ih hrest fun q hq => h q (List.mem_cons_of_mem _ hq)
    · -- the head is the last entry of the key
      have hp : p.1 = k := by
        obtain ⟨q, hq, hqk⟩ := hkey
        rcases List.mem_cons.mp hq with rfl | hq
        · exact hqk
        · exact absurd ⟨q, hq, hqk⟩ hrest
      rw [updates_of_notMem fun q hq hqk => hrest ⟨q, hq, hqk⟩, ← hp, Function.update_self]
      exact h p List.mem_cons_self hp

/-- Writing at each key the value that is there changes nothing. -/
theorem updates_idle (h : ∀ p ∈ ps, f p.1 = p.2) : updates f ps = f := by
  induction ps with
  | nil => rfl
  | cons p ps ih =>
    rw [updates_cons, ← h p List.mem_cons_self, Function.update_eq_self]
    exact ih fun q hq => h q (List.mem_cons_of_mem _ hq)

/-- Updates with distinct keys that enter the same values in a row leave the same row. -/
theorem updates_row {μ : Type*} [DecidableEq μ] {g : κ × μ → β} {cs : List ((κ × μ) × β)} {qs : List (μ × β)}
    (hcs : (cs.map Prod.fst).Nodup) (hqs : (qs.map Prod.fst).Nodup)
    (h : ∀ s b, ((k, s), b) ∈ cs ↔ (s, b) ∈ qs) (s : μ) :
    updates g cs (k, s) = updates (fun s => g (k, s)) qs s := by
  by_cases hkey : ∃ b, (s, b) ∈ qs
  · obtain ⟨b, hb⟩ := hkey
    rw [updates_of_mem hqs hb]
    exact updates_of_mem hcs ((h s b).mpr hb)
  · have hrow : ∀ p ∈ qs, p.1 ≠ s := by
      rintro ⟨s', b⟩ hp rfl
      exact hkey ⟨b, hp⟩
    have htable : ∀ p ∈ cs, p.1 ≠ (k, s) := by
      rintro ⟨⟨k', s'⟩, b⟩ hp hs
      obtain ⟨rfl, rfl⟩ := Prod.mk.inj hs
      exact hkey ⟨b, (h s' b).mp hp⟩
    rw [updates_of_notMem hrow, updates_of_notMem htable]

end Updates

/-- A loop that replaces the value at each of its keys and may fail: it gets through when every replacement does, and
each key then has its own. -/
theorem foldlM_update_ok.{u, v} {ι σ : Type u} {ε : Type v} [DecidableEq ι] {f : ι → σ → Except ε σ} {is : List ι}
    (hnodup : is.Nodup) {b b' : ι → σ} : is.foldlM (fun b i => do
        let s ← f i (b i)
        return Function.update b i s) b = .ok b' ↔
      (∀ i ∈ is, f i (b i) = .ok (b' i)) ∧ ∀ i ∉ is, b' i = b i := by
  induction is generalizing b with
  | nil =>
    rw [List.foldlM_nil]
    constructor
    · rintro h
      obtain rfl : b = b' := Except.ok.inj h
      exact ⟨fun i hi => absurd hi List.not_mem_nil, fun _ _ => rfl⟩
    · rintro ⟨-, h⟩
      exact congrArg Except.ok (funext fun i => (h i List.not_mem_nil).symm)
  | cons i is ih =>
    obtain ⟨hi, hnodup⟩ := List.nodup_cons.mp hnodup
    rw [List.foldlM_cons]
    cases hs : f i (b i) with
    | error msg =>
      constructor
      · rintro h
        cases h
      · rintro ⟨h, -⟩
        cases hs.symm.trans (h i List.mem_cons_self)
    | ok s =>
      refine (ih hnodup).trans ?_
      constructor
      · rintro ⟨hin, hout⟩
        have hb' : b' i = s := (hout i hi).trans (Function.update_self ..)
        refine ⟨fun j hj => ?_, fun j hj => ?_⟩
        · rcases List.mem_cons.mp hj with rfl | hj
          · rw [hs, hb']
          · have hne : j ≠ i := fun he => hi (he ▸ hj)
            have hstep := hin j hj
            rwa [Function.update_of_ne hne] at hstep
        · have hne : j ≠ i := fun he => hj (he ▸ List.mem_cons_self)
          rw [hout j fun hmem => hj (List.mem_cons_of_mem _ hmem), Function.update_of_ne hne]
      · rintro ⟨hin, hout⟩
        have hb' : b' i = s := (Except.ok.inj (hs.symm.trans (hin i List.mem_cons_self))).symm
        refine ⟨fun j hj => ?_, fun j hj => ?_⟩
        · have hne : j ≠ i := fun he => hi (he ▸ hj)
          rw [Function.update_of_ne hne]
          exact hin j (List.mem_cons_of_mem _ hj)
        · by_cases hji : j = i
          · rw [hji, Function.update_self, hb']
          · rw [Function.update_of_ne hji]
            refine hout j fun hmem => ?_
            rcases List.mem_cons.mp hmem with he | hmem
            · exact hji he
            · exact hj hmem

end ExpertServe.Lib
