import Mathlib.Algebra.BigOperators.Group.Finset.Basic
import Mathlib.Algebra.Order.BigOperators.Group.Finset
import Mathlib.Algebra.Order.BigOperators.Group.List
import Mathlib.Data.Finset.Card
import Mathlib.Data.List.TakeWhile
import Mathlib.Tactic.Abel

/-!
# Greedy pair swaps on finite sets

Challengers and incumbents are paired off in order, and a pair is taken while it passes a test and the
budget lasts. `accepted` is the list of pairs taken and `exchange` puts each challenger of the list in
for its incumbent. `Swaps out into res` says what the pairs of such a list must satisfy, and under it the
result is `(res \ outs) ∪ ins`, of the size of `res`, with its mass changed by the gain of the pairs.
-/

namespace ExpertServe.Lib

variable {ι : Type*}

/-! ## The pairs taken -/

/-- The pairs of challenger and incumbent taken: the longest prefix, of length at most the budget, whose
pairs all pass the test. -/
def accepted (ok : ι → ι → Bool) (budget : ℕ) (ch inc : List ι) : List (ι × ι) :=
  ((ch.zip inc).take budget).takeWhile fun p => ok p.1 p.2

/-- Each challenger in for its incumbent, one pair after the other. -/
def exchange [DecidableEq ι] (res : Finset ι) (ps : List (ι × ι)) : Finset ι :=
  ps.foldl (fun r p => insert p.1 (r.erase p.2)) res

/-- The challengers of a list of pairs. -/
def ins [DecidableEq ι] (ps : List (ι × ι)) : Finset ι := (ps.map Prod.fst).toFinset

/-- The incumbents of a list of pairs. -/
def outs [DecidableEq ι] (ps : List (ι × ι)) : Finset ι := (ps.map Prod.snd).toFinset

section Accepted

variable {ok : ι → ι → Bool} {budget : ℕ} {ch inc : List ι} {p : ι × ι}

theorem accepted_pre_take : accepted ok budget ch inc <+: (ch.zip inc).take budget := by
  unfold accepted
  exact List.takeWhile_prefix _

theorem accepted_pre : accepted ok budget ch inc <+: ch.zip inc := by
  refine accepted_pre_take.trans ?_
  exact List.take_prefix _ _

theorem ok_of_mem_accepted (h : p ∈ accepted ok budget ch inc) : ok p.1 p.2 = true := by
  have hp := List.mem_takeWhile_imp h
  exact hp

theorem length_accepted_le : (accepted ok budget ch inc).length ≤ budget :=
  accepted_pre_take.length_le.trans (List.length_take_le _ _)

theorem mem_of_mem_accepted (h : p ∈ accepted ok budget ch inc) : p.1 ∈ ch ∧ p.2 ∈ inc :=
  List.of_mem_zip (accepted_pre.subset h)

theorem map_fst_zip_pre (ch inc : List ι) : (ch.zip inc).map Prod.fst <+: ch := by
  induction ch generalizing inc with
  | nil => simp
  | cons c ch ih =>
    cases inc with
    | nil => simp
    | cons d inc => simpa using ih inc

theorem map_snd_zip_pre (ch inc : List ι) : (ch.zip inc).map Prod.snd <+: inc := by
  induction ch generalizing inc with
  | nil => simp
  | cons c ch ih =>
    cases inc with
    | nil => simp
    | cons d inc => simpa using ih inc

/-- Pairs of ordered lists are ordered in both parts. -/
theorem pairwise_zip {R S : ι → ι → Prop} (hch : ch.Pairwise R) (hinc : inc.Pairwise S) :
    (ch.zip inc).Pairwise fun p q => R p.1 q.1 ∧ S p.2 q.2 := by
  induction ch generalizing inc with
  | nil => simp
  | cons c ch ih =>
    cases inc with
    | nil => simp
    | cons d inc =>
      obtain ⟨hc, hch⟩ := List.pairwise_cons.mp hch
      obtain ⟨hd, hinc⟩ := List.pairwise_cons.mp hinc
      refine List.pairwise_cons.mpr ⟨fun q hq => ?_, ih hch hinc⟩
      obtain ⟨hq₁, hq₂⟩ := List.of_mem_zip hq
      exact ⟨hc q.1 hq₁, hd q.2 hq₂⟩

/-- Something is taken exactly when there is budget and the first pair passes. -/
theorem accepted_cons_eq_nil_iff {c d : ι} :
    accepted ok budget (c :: ch) (d :: inc) = [] ↔ budget = 0 ∨ ok c d = false := by
  unfold accepted
  cases budget with
  | zero => simp
  | succ b =>
    cases h : ok c d with
    | false => simp [h]
    | true => simp [h]

/-- Where no pair passes behind one that fails, stopping at the first failure takes all the pairs that pass. -/
theorem accepted_eq_filter (h : (ch.zip inc).Pairwise fun p q => ok q.1 q.2 = true → ok p.1 p.2 = true) :
    accepted ok budget ch inc = ((ch.zip inc).take budget).filter fun p => ok p.1 p.2 := by
  unfold accepted
  replace h := h.sublist (List.take_sublist budget _)
  generalize (ch.zip inc).take budget = pairs at h ⊢
  induction pairs with
  | nil => rfl
  | cons p ps ih =>
    obtain ⟨hp, hps⟩ := List.pairwise_cons.mp h
    cases hok : ok p.1 p.2 with
    | true => simp only [List.takeWhile_cons, List.filter_cons, hok, if_true, ih hps]
    | false =>
      have hnone : ∀ q ∈ ps, ¬ ok q.1 q.2 = true := fun q hq hpass => by simp [hp q hq hpass] at hok
      simp only [List.takeWhile_cons, List.filter_cons, hok, List.filter_eq_nil_iff.mpr hnone]
      rfl

@[simp] theorem accepted_nil_left : accepted ok budget [] inc = [] := by simp [accepted]

@[simp] theorem accepted_nil_right : accepted ok budget ch [] = [] := by simp [accepted]

end Accepted

/-! ## What an exchange does -/

section Exchange

variable {res : Finset ι} {ps : List (ι × ι)} {i : ι} {p : ι × ι}

/-- The pairs bring distinct challengers from outside the set and take distinct incumbents out of it. -/
structure Swaps (res : Finset ι) (ps : List (ι × ι)) : Prop where
  nodup_fst : (ps.map Prod.fst).Nodup
  nodup_snd : (ps.map Prod.snd).Nodup
  fst_notMem : ∀ p ∈ ps, p.1 ∉ res
  snd_mem : ∀ p ∈ ps, p.2 ∈ res

/-- Pairing a list outside the set with a list inside it swaps. -/
theorem Swaps.zip {ch inc : List ι} (hch : ch.Nodup) (hinc : inc.Nodup) (hout : ∀ i ∈ ch, i ∉ res)
    (hin : ∀ i ∈ inc, i ∈ res) : Swaps res (ch.zip inc) where
  nodup_fst := (map_fst_zip_pre ch inc).sublist.nodup hch
  nodup_snd := (map_snd_zip_pre ch inc).sublist.nodup hinc
  fst_notMem _ hp := hout _ (List.of_mem_zip hp).1
  snd_mem _ hp := hin _ (List.of_mem_zip hp).2

/-- Some of the pairs of a swap swap. -/
theorem Swaps.of_sublist {qs : List (ι × ι)} (h : Swaps res qs) (hsub : ps.Sublist qs) : Swaps res ps where
  nodup_fst := (hsub.map Prod.fst).nodup h.nodup_fst
  nodup_snd := (hsub.map Prod.snd).nodup h.nodup_snd
  fst_notMem p hp := h.fst_notMem p (hsub.subset hp)
  snd_mem p hp := h.snd_mem p (hsub.subset hp)

/-- The first pairs of a swap swap. -/
theorem Swaps.of_pre {qs : List (ι × ι)} (h : Swaps res qs) (hpre : ps <+: qs) : Swaps res ps :=
  h.of_sublist hpre.sublist

theorem Swaps.nil : Swaps res [] := ⟨by simp, by simp, by simp, by simp⟩

theorem Swaps.accepted {ok : ι → ι → Bool} {budget : ℕ} {ch inc : List ι} (hch : ch.Nodup)
    (hinc : inc.Nodup) (hout : ∀ i ∈ ch, i ∉ res) (hin : ∀ i ∈ inc, i ∈ res) :
    Swaps res (accepted ok budget ch inc) :=
  (Swaps.zip hch hinc hout hin).of_pre accepted_pre

variable [DecidableEq ι]

@[simp] theorem exchange_nil : exchange res [] = res := rfl

@[simp] theorem exchange_cons : exchange res (p :: ps) = exchange (insert p.1 (res.erase p.2)) ps := rfl

@[simp] theorem mem_ins : i ∈ ins ps ↔ ∃ p ∈ ps, p.1 = i := by simp [ins]

@[simp] theorem mem_outs : i ∈ outs ps ↔ ∃ p ∈ ps, p.2 = i := by simp [outs]

/-- Taking distinct incumbents out never leaves more than there were, wherever the challengers come from. -/
theorem card_exchange_le (hnodup : (ps.map Prod.snd).Nodup) (hmem : ∀ p ∈ ps, p.2 ∈ res) :
    (exchange res ps).card ≤ res.card := by
  induction ps generalizing res with
  | nil => exact le_rfl
  | cons p ps ih =>
    obtain ⟨hp, hps⟩ := List.nodup_cons.mp hnodup
    have hstep : (insert p.1 (res.erase p.2)).card ≤ res.card := by
      have herase := Finset.card_erase_add_one (hmem p List.mem_cons_self)
      have hinsert := Finset.card_insert_le p.1 (res.erase p.2)
      omega
    refine (ih hps fun q hq => ?_).trans hstep
    have hne : q.2 ≠ p.2 := fun h => hp (h ▸ List.mem_map_of_mem hq)
    exact Finset.mem_insert_of_mem (Finset.mem_erase.mpr ⟨hne, hmem q (List.mem_cons_of_mem p hq)⟩)

theorem ins_cons : ins (p :: ps) = insert p.1 (ins ps) := by simp [ins]

theorem outs_cons : outs (p :: ps) = insert p.2 (outs ps) := by simp [outs]

theorem ins_zip {ch inc : List ι} (h : ch.length = inc.length) : ins (ch.zip inc) = ch.toFinset := by
  rw [ins, List.map_fst_zip h.le]

theorem outs_zip {ch inc : List ι} (h : ch.length = inc.length) : outs (ch.zip inc) = inc.toFinset := by
  rw [outs, List.map_snd_zip h.ge]

/-- The challengers of the first pairs are the first challengers, as far as there are incumbents for them. -/
theorem ins_take_zip {ch inc : List ι} {n : ℕ} (hch : n ≤ ch.length) (hinc : n ≤ inc.length) :
    ins ((ch.zip inc).take n) = (ch.take n).toFinset := by
  rw [List.zip, List.take_zipWith, ← List.zip, ins_zip (by simp [hch, hinc])]

theorem outs_take_zip {ch inc : List ι} {n : ℕ} (hch : n ≤ ch.length) (hinc : n ≤ inc.length) :
    outs ((ch.zip inc).take n) = (inc.take n).toFinset := by
  rw [List.zip, List.take_zipWith, ← List.zip, outs_zip (by simp [hch, hinc])]

theorem Swaps.tail (h : Swaps res (p :: ps)) : Swaps (insert p.1 (res.erase p.2)) ps where
  nodup_fst := (List.nodup_cons.mp h.nodup_fst).2
  nodup_snd := (List.nodup_cons.mp h.nodup_snd).2
  fst_notMem q hq := by
    have hne : q.1 ≠ p.1 := fun he =>
      (List.nodup_cons.mp h.nodup_fst).1 (List.mem_map.mpr ⟨q, hq, he⟩)
    have hnot : q.1 ∉ res := h.fst_notMem q (List.mem_cons_of_mem _ hq)
    simp [hne, hnot]
  snd_mem q hq := by
    have hne : q.2 ≠ p.2 := fun he =>
      (List.nodup_cons.mp h.nodup_snd).1 (List.mem_map.mpr ⟨q, hq, he⟩)
    have hmem : q.2 ∈ res := h.snd_mem q (List.mem_cons_of_mem _ hq)
    simp [hne, hmem]

theorem Swaps.ins_disjoint (h : Swaps res ps) : Disjoint (ins ps) res := by
  rw [Finset.disjoint_left]
  intro i hi
  obtain ⟨p, hp, rfl⟩ := mem_ins.mp hi
  exact h.fst_notMem p hp

theorem Swaps.outs_subset (h : Swaps res ps) : outs ps ⊆ res := by
  intro i hi
  obtain ⟨p, hp, rfl⟩ := mem_outs.mp hi
  exact h.snd_mem p hp

/-- **What an exchange is**: the incumbents out, the challengers in. -/
theorem Swaps.exchange_eq (h : Swaps res ps) : exchange res ps = (res \ outs ps) ∪ ins ps := by
  induction ps generalizing res with
  | nil => simp [outs, ins]
  | cons p ps ih =>
    rw [exchange_cons, ih h.tail]
    have hres : p.1 ∉ res := h.fst_notMem p List.mem_cons_self
    have houts : p.1 ∉ outs (p :: ps) := fun hp => hres (h.outs_subset hp)
    rw [outs_cons] at houts
    rw [ins_cons, outs_cons]
    ext i
    simp only [Finset.mem_union, Finset.mem_sdiff, Finset.mem_insert, Finset.mem_erase] at houts ⊢
    by_cases hi : i = p.1
    · subst hi
      tauto
    · tauto

theorem Swaps.mem_exchange (h : Swaps res ps) :
    i ∈ exchange res ps ↔ (i ∈ res ∧ i ∉ outs ps) ∨ i ∈ ins ps := by
  rw [h.exchange_eq, Finset.mem_union, Finset.mem_sdiff]

theorem Swaps.exchange_sdiff (h : Swaps res ps) : exchange res ps \ res = ins ps := by
  rw [h.exchange_eq]
  ext i
  have hdis : i ∈ ins ps → i ∉ res := fun hi => Finset.disjoint_left.mp h.ins_disjoint hi
  simp only [Finset.mem_sdiff, Finset.mem_union]
  tauto

/-- An exchange keeps the size of the set. -/
theorem Swaps.card_exchange (h : Swaps res ps) : (exchange res ps).card = res.card := by
  induction ps generalizing res with
  | nil => rfl
  | cons p ps ih =>
    have hmem : p.2 ∈ res := h.snd_mem p List.mem_cons_self
    have hnot : p.1 ∉ res.erase p.2 := fun hp =>
      h.fst_notMem p List.mem_cons_self (Finset.mem_of_mem_erase hp)
    rw [exchange_cons, ih h.tail, Finset.card_insert_of_notMem hnot, Finset.card_erase_add_one hmem]

/-- At most as many members arrive as there are pairs. -/
theorem Swaps.card_arrivals_le (h : Swaps res ps) : (exchange res ps \ res).card ≤ ps.length := by
  rw [h.exchange_sdiff]
  exact (List.toFinset_card_le _).trans (List.length_map _).le

/-- An exchange of at least one pair moves the set. -/
theorem Swaps.exchange_ne (h : Swaps res ps) (hps : ps ≠ []) : exchange res ps ≠ res := by
  obtain ⟨p, hp⟩ := List.exists_mem_of_ne_nil ps hps
  intro he
  have hin : p.1 ∈ exchange res ps := h.mem_exchange.mpr (Or.inr (mem_ins.mpr ⟨p, hp, rfl⟩))
  exact h.fst_notMem p hp (he ▸ hin)

/-! ## Masses -/

section Mass

variable {α : Type*} [AddCommGroup α] {f : ι → α}

/-- The mass after an exchange is the mass before it plus the gain of every pair. -/
theorem Swaps.sum_exchange (h : Swaps res ps) (f : ι → α) :
    ∑ i ∈ exchange res ps, f i = ∑ i ∈ res, f i + (ps.map fun p => f p.1 - f p.2).sum := by
  induction ps generalizing res with
  | nil => simp
  | cons p ps ih =>
    have hmem : p.2 ∈ res := h.snd_mem p List.mem_cons_self
    have hnot : p.1 ∉ res.erase p.2 := fun hp =>
      h.fst_notMem p List.mem_cons_self (Finset.mem_of_mem_erase hp)
    rw [exchange_cons, ih h.tail, Finset.sum_insert hnot, List.map_cons, List.sum_cons,
      ← Finset.add_sum_erase res f hmem]
    abel

/-- The mass after one more pair is the mass before it plus the gain of that pair. -/
theorem Swaps.sum_exchange_take_succ (h : Swaps res ps) (f : ι → α) {n : ℕ} (hn : n < ps.length) :
    ∑ i ∈ exchange res (ps.take (n + 1)), f i =
      ∑ i ∈ exchange res (ps.take n), f i + (f ps[n].1 - f ps[n].2) := by
  rw [(h.of_pre (List.take_prefix _ _)).sum_exchange, (h.of_pre (List.take_prefix _ _)).sum_exchange,
    List.take_succ_eq_append_getElem hn, List.map_append, List.sum_append, ← add_assoc]
  simp

variable [LinearOrder α] [IsOrderedAddMonoid α]

theorem Swaps.sum_le_sum_exchange (h : Swaps res ps) (hgain : ∀ p ∈ ps, f p.2 ≤ f p.1) :
    ∑ i ∈ res, f i ≤ ∑ i ∈ exchange res ps, f i := by
  rw [h.sum_exchange]
  refine le_add_of_nonneg_right (List.sum_nonneg fun x hx => ?_)
  obtain ⟨p, hp, rfl⟩ := List.mem_map.mp hx
  exact sub_nonneg.mpr (hgain p hp)

theorem Swaps.sum_lt_sum_exchange (h : Swaps res ps) (hps : ps ≠ [])
    (hgain : ∀ p ∈ ps, f p.2 < f p.1) : ∑ i ∈ res, f i < ∑ i ∈ exchange res ps, f i := by
  rw [h.sum_exchange]
  refine lt_add_of_pos_right _ (List.sum_pos _ (fun x hx => ?_) (by simpa using hps))
  obtain ⟨p, hp, rfl⟩ := List.mem_map.mp hx
  exact sub_pos.mpr (hgain p hp)

end Mass

end Exchange

end ExpertServe.Lib
