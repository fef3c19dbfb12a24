import Mathlib.Data.Fintype.Basic
import Mathlib.Data.Finset.Card
import Mathlib.Data.Finset.Max
import Mathlib.Data.List.FinRange
import Mathlib.Data.List.Sort
import Mathlib.Order.Basic

/-!
# Masks, index order and orderings by value

A boolean mask over `n` indices is a `Finset (Fin n)`. `whereTrue` lists it in index order.
Sorting an index list by a value is an `Argsort`: any choice of permutations that sorts, so what is
proved about one holds however ties are broken. `Argsort.stable` is the computable stable one.
-/

namespace ExpertServe.Lib

/-! ## Shortcut instances for the index types -/

instance (priority := high) finSucc_neZero (n : ℕ) : @NeZero ℕ Zero.ofOfNat0 (n + 1) := ⟨n.succ_ne_zero⟩

instance (priority := high) fin_lawfulBEq (n : ℕ) : LawfulBEq (Fin n) := inferInstance

/-! ## The true positions of a mask -/

section WhereTrue

variable {n : ℕ} {m m' : Finset (Fin n)} {i : Fin n}

/-- The true positions of a mask, in index order. -/
def whereTrue (m : Finset (Fin n)) : List (Fin n) := (List.finRange n).filter (· ∈ m)

@[simp] theorem mem_whereTrue : i ∈ whereTrue m ↔ i ∈ m := by simp [whereTrue]

theorem whereTrue_nodup (m : Finset (Fin n)) : (whereTrue m).Nodup :=
  (List.nodup_finRange n).filter _

@[simp] theorem whereTrue_toFinset (m : Finset (Fin n)) : (whereTrue m).toFinset = m := by
  ext i; simp

@[simp] theorem length_whereTrue (m : Finset (Fin n)) : (whereTrue m).length = m.card := by
  rw [← List.toFinset_card_of_nodup (whereTrue_nodup m), whereTrue_toFinset]

/-- The true positions come in strictly increasing order. -/
theorem whereTrue_sorted (m : Finset (Fin n)) : (whereTrue m).Pairwise (· < ·) :=
  (List.pairwise_lt_finRange n).filter _

theorem filter_whereTrue (m : Finset (Fin n)) (p : Fin n → Prop) [DecidablePred p] :
    (whereTrue m).filter (fun i => p i) = whereTrue (m.filter p) := by
  unfold whereTrue
  rw [List.filter_filter]
  refine List.filter_congr fun i _ => ?_
  simp [and_comm]

theorem whereTrue_eq_nil : whereTrue m = [] ↔ m = ∅ := by
  rw [← List.length_eq_zero_iff, length_whereTrue, Finset.card_eq_zero]

end WhereTrue

/-! ## Sorting by a value -/

/-- A way to sort a list of indices by a value, in both directions, with ties in any order. -/
structure Argsort (ι α : Type*) [LE α] where
  asc : (ι → α) → List ι → List ι
  desc : (ι → α) → List ι → List ι
  asc_perm : ∀ f l, (asc f l).Perm l
  desc_perm : ∀ f l, (desc f l).Perm l
  asc_sorted : ∀ f l, (asc f l).Pairwise fun i j => f i ≤ f j
  desc_sorted : ∀ f l, (desc f l).Pairwise fun i j => f j ≤ f i

namespace Argsort

variable {ι α : Type*} [LinearOrder α]

/-- The stable sort, first index first among equals. -/
def stable : Argsort ι α where
  asc f l := l.insertionSort fun i j => f i ≤ f j
  desc f l := l.insertionSort fun i j => f j ≤ f i
  asc_perm _ l := l.perm_insertionSort _
  desc_perm _ l := l.perm_insertionSort _
  asc_sorted f l :=
    letI : Std.Total fun i j : ι => f i ≤ f j := ⟨fun i j => le_total (f i) (f j)⟩
    letI : IsTrans ι fun i j => f i ≤ f j := ⟨fun _ _ _ h h' => le_trans h h'⟩
    l.pairwise_insertionSort _
  desc_sorted f l :=
    letI : Std.Total fun i j : ι => f j ≤ f i := ⟨fun i j => le_total (f j) (f i)⟩
    letI : IsTrans ι fun i j => f j ≤ f i := ⟨fun _ _ _ h h' => le_trans h' h⟩
    l.pairwise_insertionSort _

/-- Larger value first, and the members of `B` first among equals. -/
def before (f : ι → α) (B : Finset ι) (i j : ι) : Prop := f j < f i ∨ (f j = f i ∧ (j ∈ B → i ∈ B))

instance [DecidableEq ι] (f : ι → α) (B : Finset ι) : DecidableRel (before f B) := fun _ _ =>
  inferInstanceAs (Decidable (_ ∨ _))

instance (f : ι → α) (B : Finset ι) : Std.Total (before f B) where
  total i j := by
    rcases lt_trichotomy (f j) (f i) with h | h | h
    · exact Or.inl (Or.inl h)
    · by_cases hj : j ∈ B
      · exact Or.inr (Or.inr ⟨h.symm, fun _ => hj⟩)
      · exact Or.inl (Or.inr ⟨h, fun hj' => absurd hj' hj⟩)
    · exact Or.inr (Or.inl h)

instance (f : ι → α) (B : Finset ι) : IsTrans ι (before f B) where
  trans i j k := by
    rintro (hij | ⟨hij, hb⟩) (hjk | ⟨hjk, hb'⟩)
    · exact Or.inl (hjk.trans hij)
    · exact Or.inl (hjk ▸ hij)
    · exact Or.inl (hij ▸ hjk)
    · exact Or.inr ⟨hjk.trans hij, fun hk => hb (hb' hk)⟩

/-- A sort that puts the members of `B` first among equals when it goes downwards. -/
def favouring [DecidableEq ι] (B : Finset ι) : Argsort ι α :=
  { stable with
    desc := fun f l => l.insertionSort (before f B)
    desc_perm := fun _ l => l.perm_insertionSort _
    desc_sorted := fun f l => (l.pairwise_insertionSort (before f B)).imp fun h =>
      h.elim le_of_lt fun h => h.1.le }

variable (srt : Argsort ι α) {f : ι → α} {l : List ι} {i : ι}

@[simp] theorem mem_asc : i ∈ srt.asc f l ↔ i ∈ l := (srt.asc_perm f l).mem_iff

@[simp] theorem mem_desc : i ∈ srt.desc f l ↔ i ∈ l := (srt.desc_perm f l).mem_iff

@[simp] theorem length_asc : (srt.asc f l).length = l.length := (srt.asc_perm f l).length_eq

@[simp] theorem length_desc : (srt.desc f l).length = l.length := (srt.desc_perm f l).length_eq

@[simp] theorem asc_nil : srt.asc f [] = [] := (srt.asc_perm f []).eq_nil

@[simp] theorem desc_nil : srt.desc f [] = [] := (srt.desc_perm f []).eq_nil

theorem nodup_asc (h : l.Nodup) : (srt.asc f l).Nodup := (srt.asc_perm f l).nodup_iff.mpr h

theorem nodup_desc (h : l.Nodup) : (srt.desc f l).Nodup := (srt.desc_perm f l).nodup_iff.mpr h

end Argsort

/-- The stable order of a list is the same by any two values that order alike. -/
theorem Argsort.stable_desc_congr {ι α β : Type*} [LinearOrder α] [LinearOrder β] {f : ι → α} {g : ι → β}
    (h : ∀ i j, f i ≤ f j ↔ g i ≤ g j) (l : List ι) :
    (stable : Argsort ι α).desc f l = (stable : Argsort ι β).desc g l := by
  have hmap := List.map_insertionSort (fun i j => f j ≤ f i) (fun i j => g j ≤ g i) id l fun i _ j _ => h j i
  rwa [List.map_id, List.map_id] at hmap

/-! ## Places in a descending order -/

/-- In a list sorted downwards exactly the first places hold values above a threshold. -/
theorem lt_countP_iff_of_desc {ι α : Type*} [LinearOrder α] {f : ι → α} {t : α} {l : List ι}
    (h : l.Pairwise fun i j => f j ≤ f i) {p : ℕ} (hp : p < l.length) :
    p < l.countP (fun i => decide (t < f i)) ↔ t < f l[p] := by
  induction l generalizing p with
  | nil => exact absurd hp (Nat.not_lt_zero p)
  | cons a l ih =>
    obtain ⟨ha, hl⟩ := List.pairwise_cons.mp h
    by_cases hta : t < f a
    · rw [List.countP_cons_of_pos (by simpa using hta)]
      cases p with
      | zero => simpa using hta
      | succ p =>
        have hp' : p < l.length := by simpa using hp
        simpa using ih hl hp'
    · -- nothing behind `a` is larger than `a`
      have hnone : ∀ i ∈ l, ¬ t < f i := fun i hi hti => hta (hti.trans_le (ha i hi))
      have hzero : l.countP (fun i => decide (t < f i)) = 0 := by
        rw [List.countP_eq_zero]
        intro i hi
        simpa using hnone i hi
      rw [List.countP_cons_of_neg (by simpa using hta), hzero]
      refine ⟨fun h0 => absurd h0 (Nat.not_lt_zero p), fun htp => ?_⟩
      rcases List.mem_cons.mp (List.getElem_mem hp) with heq | hmem
      · exact absurd (heq ▸ htp) hta
      · exact absurd htp (hnone _ hmem)

/-- In a list sorted downwards whatever comes first is at least as large as whatever does not. -/
theorem le_of_mem_take_of_desc {ι α : Type*} [LinearOrder α] {f : ι → α} {l : List ι}
    (h : l.Pairwise fun i j => f j ≤ f i) {k : ℕ} {a b : ι} (ha : a ∈ l.take k) (hb : b ∈ l) (hnot : b ∉ l.take k) :
    f b ≤ f a := by
  rw [← List.take_append_drop k l] at h hb
  have hdrop : b ∈ l.drop k := (List.mem_append.mp hb).resolve_left hnot
  exact (List.pairwise_append.mp h).2.2 a ha b hdrop

/-- Of two orders of a list by value, the first orders equals as the second does or cuts no equals apart at `k`. -/
def CutAlike {ι α : Type*} (f : ι → α) (k : ℕ) (l l' : List ι) : Prop :=
  l = l' ∨ ∀ a ∈ l.take k, ∀ b ∈ l.drop k, f b ≠ f a

/-- Where no tie is cut apart, any order downwards has the same first elements. -/
theorem CutAlike.take_perm {ι α : Type*} [LinearOrder α] {f : ι → α} {k : ℕ} {l l' : List ι} (h : CutAlike f k l l')
    (hperm : l.Perm l') (hnodup : l.Nodup) (hsorted : l.Pairwise fun i j => f j ≤ f i)
    (hsorted' : l'.Pairwise fun i j => f j ≤ f i) : (l.take k).Perm (l'.take k) := by
  rcases h with rfl | hcut
  · exact List.Perm.refl _
  have hlen : (l.take k).length = (l'.take k).length := by
    rw [List.length_take, List.length_take, hperm.length_eq]
  have hsub : ∀ a ∈ l.take k, a ∈ l'.take k := by
    intro a ha
    by_contra hnot
    -- the other order has some `b` in place of `a`, equal to it
    obtain ⟨b, hb, hb'⟩ : ∃ b ∈ l'.take k, b ∉ l.take k := by
      by_contra hall
      push Not at hall
      have hsubperm := ((hperm.nodup_iff.mp hnodup).sublist (List.take_sublist k l')).subperm hall
      exact hnot ((hsubperm.perm_of_length_le hlen.le).mem_iff.mpr ha)
    have hmem : b ∈ l := hperm.mem_iff.mpr (List.mem_of_mem_take hb)
    have hle : f b ≤ f a := le_of_mem_take_of_desc hsorted ha hmem hb'
    have hge : f a ≤ f b := le_of_mem_take_of_desc hsorted' hb (hperm.mem_iff.mp (List.mem_of_mem_take ha)) hnot
    have hdrop : b ∈ l.drop k := by
      rw [← List.take_append_drop k l] at hmem
      exact (List.mem_append.mp hmem).resolve_left hb'
    exact hcut a ha b hdrop (le_antisymm hle hge)
  exact ((hnodup.sublist (List.take_sublist k l)).subperm hsub).perm_of_length_le hlen.ge

namespace Argsort

variable {n : ℕ} {α : Type*} [LinearOrder α] (srt : Argsort (Fin n) α) (f : Fin n → α)

/-- The indices, largest value first. -/
def order : List (Fin n) := srt.desc f (List.finRange n)

/-- The place of an index in that order. -/
def rank (i : Fin n) : ℕ := (srt.order f).idxOf i

theorem order_perm : (srt.order f).Perm (List.finRange n) := srt.desc_perm f _

theorem order_sorted : (srt.order f).Pairwise fun i j => f j ≤ f i := srt.desc_sorted f _

theorem mem_order (i : Fin n) : i ∈ srt.order f := srt.mem_desc.mpr (List.mem_finRange i)

theorem length_order : (srt.order f).length = n := srt.length_desc.trans List.length_finRange

theorem nodup_order : (srt.order f).Nodup := srt.nodup_desc (List.nodup_finRange n)

theorem rank_lt (i : Fin n) : srt.rank f i < n :=
  (List.idxOf_lt_length_of_mem (srt.mem_order f i)).trans_eq (srt.length_order f)

/-- The index at a place has that place as its rank, and conversely. -/
theorem getElem?_order_eq_some_iff {i : Fin n} {p : ℕ} : (srt.order f)[p]? = some i ↔ srt.rank f i = p := by
  constructor
  · intro h
    obtain ⟨hlt, rfl⟩ := List.getElem?_eq_some_iff.mp h
    exact (srt.nodup_order f).idxOf_getElem p hlt
  · rintro rfl
    have hlt := List.idxOf_lt_length_of_mem (srt.mem_order f i)
    unfold rank
    rw [List.getElem?_eq_getElem hlt, List.getElem_idxOf]

theorem rank_injective : Function.Injective (srt.rank f) := fun i j h => by
  have hi := (srt.getElem?_order_eq_some_iff f).mpr (rfl : srt.rank f i = srt.rank f i)
  rw [h, (srt.getElem?_order_eq_some_iff f).mpr rfl] at hi
  exact (Option.some.inj hi).symm

theorem exists_rank_eq {p : ℕ} (hp : p < n) : ∃ i, srt.rank f i = p := by
  have hlt : p < (srt.order f).length := hp.trans_eq (srt.length_order f).symm
  exact ⟨(srt.order f)[p], (srt.getElem?_order_eq_some_iff f).mp (List.getElem?_eq_getElem hlt)⟩

/-- **Ranks by threshold.** The indices with values above a threshold are those of the first ranks. -/
theorem rank_lt_card_iff (t : α) (i : Fin n) :
    srt.rank f i < (Finset.univ.filter fun j => t < f j).card ↔ t < f i := by
  have hcount : (Finset.univ.filter fun j => t < f j).card = (srt.order f).countP fun j => decide (t < f j) := by
    rw [(srt.order_perm f).countP_eq, List.countP_eq_length_filter, ← length_whereTrue]
    unfold whereTrue
    congr 1
    refine List.filter_congr fun j _ => ?_
    simp
  have hlt := List.idxOf_lt_length_of_mem (srt.mem_order f i)
  unfold rank
  rw [hcount, lt_countP_iff_of_desc (srt.order_sorted f) hlt, List.getElem_idxOf]

/-- A favoured index comes behind the larger values and the other favoured ones only. -/
theorem rank_favouring_le {B : Finset (Fin n)} {b : Fin n} (hb : b ∈ B) :
    (favouring B).rank f b ≤ (Finset.univ.filter fun j => f b < f j).card + (B.erase b).card := by
  -- whoever holds a place before `b` is larger, or favoured too
  have hbefore : Finset.range ((favouring B).rank f b) ⊆
      ((Finset.univ.filter fun j => f b < f j) ∪ B.erase b).image ((favouring B).rank f) := by
    intro q hq
    have hlt : q < (favouring B).rank f b := Finset.mem_range.mp hq
    obtain ⟨i, hi⟩ := (favouring B).exists_rank_eq f (hlt.trans ((favouring B).rank_lt f b))
    obtain ⟨hil, hie⟩ := List.getElem?_eq_some_iff.mp (((favouring B).getElem?_order_eq_some_iff f).mpr hi)
    obtain ⟨hbl, hbe⟩ := List.getElem?_eq_some_iff.mp
      (((favouring B).getElem?_order_eq_some_iff f).mpr (rfl : (favouring B).rank f b = _))
    have hsorted : ((favouring B).order f).Pairwise (before f B) := List.pairwise_insertionSort _ _
    have h := List.pairwise_iff_getElem.mp hsorted _ _ hil hbl hlt
    rw [hie, hbe] at h
    refine Finset.mem_image.mpr ⟨i, Finset.mem_union.mpr ?_, hi⟩
    rcases h with hlarger | ⟨-, hsame⟩
    · exact Or.inl (Finset.mem_filter.mpr ⟨Finset.mem_univ i, hlarger⟩)
    · have hne : i ≠ b := by
        rintro rfl
        omega
      exact Or.inr (Finset.mem_erase.mpr ⟨hne, hsame hb⟩)
  calc (favouring B).rank f b = (Finset.range ((favouring B).rank f b)).card := (Finset.card_range _).symm
    _ ≤ _ := Finset.card_le_card hbefore
    _ ≤ _ := Finset.card_image_le
    _ ≤ _ := Finset.card_union_le _ _

/-- One favoured index comes right behind the larger values. -/
theorem rank_favouring (b : Fin n) :
    (favouring {b}).rank f b = (Finset.univ.filter fun j => f b < f j).card := by
  have hsrt := (favouring {b} : Argsort (Fin n) α).rank_lt_card_iff f (f b)
  refine le_antisymm ?_ (not_lt.mp fun h => lt_irrefl _ ((hsrt b).mp h))
  simpa using rank_favouring_le f (Finset.mem_singleton_self b)

end Argsort

/-! ## The best few of a set -/

/-- One of the best `d` of a set has a value strictly between two bounds exactly when some member has, and fewer than
`d` have the upper bound or more. The values need only follow the order the set is ranked by. -/
theorem exists_best_between_iff {ι α β : Type*} [LinearOrder α] [LinearOrder β] {A : Finset ι} {f : ι → α} {g : ι → β}
    (hmono : ∀ i j, f i ≤ f j → g i ≤ g j) {d : ℕ} {lo hi : β} :
    (∃ e ∈ A, (A.filter fun j => f e < f j).card < d ∧ lo < g e ∧ g e < hi) ↔
      (A.filter fun j => hi ≤ g j).card < d ∧ ∃ e ∈ A, lo < g e ∧ g e < hi := by
  constructor
  · rintro ⟨e, he, hcard, hlo, hhi⟩
    refine ⟨(Finset.card_le_card fun j hj => ?_).trans_lt hcard, e, he, hlo, hhi⟩
    obtain ⟨hjA, hj⟩ := Finset.mem_filter.mp hj
    refine Finset.mem_filter.mpr ⟨hjA, lt_of_not_ge fun hle => ?_⟩
    exact absurd ((hhi.trans_le hj).trans_le (hmono j e hle)) (lt_irrefl _)
  · rintro ⟨hcard, e, he, hlo, hhi⟩
    -- the best of those in between has only members of the upper part above it
    obtain ⟨b, hb, hmax⟩ := Finset.exists_max_image (A.filter fun j => lo < g j ∧ g j < hi) f
      ⟨e, Finset.mem_filter.mpr ⟨he, hlo, hhi⟩⟩
    obtain ⟨hbA, hblo, hbhi⟩ := Finset.mem_filter.mp hb
    refine ⟨b, hbA, (Finset.card_le_card fun j hj => ?_).trans_lt hcard, hblo, hbhi⟩
    obtain ⟨hjA, hj⟩ := Finset.mem_filter.mp hj
    refine Finset.mem_filter.mpr ⟨hjA, le_of_not_gt fun hlt => ?_⟩
    have hle := hmax j (Finset.mem_filter.mpr ⟨hjA, hblo.trans_le (hmono b j hj.le), hlt⟩)
    exact absurd (hj.trans_le hle) (lt_irrefl _)

/-! ## Slices -/

/-- The slice `l[:n]` with a bound of any sign: a negative one counts from the end. -/
def sliceTo {β : Type*} (l : List β) (n : ℤ) : List β :=
  l.take (if 0 ≤ n then n else l.length + n).toNat

theorem sliceTo_sublist {β : Type*} (l : List β) (n : ℤ) : (sliceTo l n).Sublist l := List.take_sublist _ _

theorem sliceTo_ne_nil {β : Type*} {l : List β} {n : ℤ} (hn : 0 < n) (hl : l ≠ []) : sliceTo l n ≠ [] := by
  unfold sliceTo
  rw [if_pos hn.le, Ne, List.take_eq_nil_iff]
  exact fun h => h.elim (fun hn0 => by omega) hl

end ExpertServe.Lib
