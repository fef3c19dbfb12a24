import Mathlib.Algebra.BigOperators.Group.List.Basic
import Mathlib.Algebra.Order.Group.Nat
import Mathlib.Data.List.Forall2
import Mathlib.Data.List.GetD
import Mathlib.Data.List.Range
import Mathlib.Tactic.Common

/-!
# Row-major tensors

A tensor is a shape and as many cells as the shape has, the last axis running fastest.

* `offset`, `unravel`: from an index to the place of its cell and back (`offset_unravel`, `unravel_offset`);
* `Tensor.get_build`, `Tensor.ext_get`: a tensor is given by what is at its indices;
* `Tensor.exists_reshape`, `Tensor.get_permute`, `Tensor.exists_viewAs`, `Tensor.get_select`: what each operation moves where.
-/

namespace ExpertServe.Lib

/-! ## Indices -/

/-- The place of the cell at an index. -/
def offset : List ℕ → List ℕ → ℕ
  | _ :: shape, i :: idx => i * shape.prod + offset shape idx
  | _, _ => 0

/-- The index of the cell at a place. -/
def unravel : List ℕ → ℕ → List ℕ
  | [], _ => []
  | _ :: shape, p => p / shape.prod :: unravel shape (p % shape.prod)

/-- An index with one entry for each axis, below its size. -/
abbrev InBounds (shape idx : List ℕ) : Prop := List.Forall₂ (· < ·) idx shape

theorem exists_index₂ {a b : ℕ} {idx : List ℕ} (h : InBounds [a, b] idx) : ∃ i < a, ∃ j < b, idx = [i, j] := by
  cases h with
  | cons hi h =>
    cases h with
    | cons hj h =>
      cases h
      exact ⟨_, hi, _, hj, rfl⟩

theorem exists_index₃ {a b c : ℕ} {idx : List ℕ} (h : InBounds [a, b, c] idx) :
    ∃ i < a, ∃ j < b, ∃ k < c, idx = [i, j, k] := by
  cases h with
  | cons hi h =>
    obtain ⟨j, hj, k, hk, rfl⟩ := exists_index₂ h
    exact ⟨_, hi, j, hj, k, hk, rfl⟩

theorem offset_lt {shape idx : List ℕ} (h : InBounds shape idx) : offset shape idx < shape.prod := by
  induction h with
  | nil => exact Nat.one_pos
  | cons hi _ ih =>
    rw [offset, List.prod_cons]
    exact Nat.lt_of_lt_of_le (Nat.add_lt_add_left ih _) (by
      rw [← Nat.succ_mul]
      exact Nat.mul_le_mul_right _ hi)

theorem unravel_inBounds {shape : List ℕ} {p : ℕ} (h : p < shape.prod) : InBounds shape (unravel shape p) := by
  induction shape generalizing p with
  | nil => exact List.Forall₂.nil
  | cons d shape ih =>
    rw [List.prod_cons] at h
    have hpos : 0 < shape.prod := Nat.pos_of_ne_zero fun h0 => by simp [h0] at h
    rw [unravel]
    exact List.Forall₂.cons ((Nat.div_lt_iff_lt_mul hpos).mpr h) (ih (Nat.mod_lt p hpos))

theorem offset_unravel {shape : List ℕ} {p : ℕ} (h : p < shape.prod) : offset shape (unravel shape p) = p := by
  induction shape generalizing p with
  | nil =>
    rw [List.prod_nil] at h
    rw [unravel, offset]
    · omega
    · simp
  | cons d shape ih =>
    rw [List.prod_cons] at h
    have hpos : 0 < shape.prod := Nat.pos_of_ne_zero fun h0 => by simp [h0] at h
    rw [unravel, offset, ih (Nat.mod_lt p hpos)]
    exact Nat.div_add_mod' p shape.prod

theorem unravel_offset {shape idx : List ℕ} (h : InBounds shape idx) : unravel shape (offset shape idx) = idx := by
  induction h with
  | nil => rfl
  | @cons i d idx shape _ htail ih =>
    have hlt := offset_lt htail
    have hpos : 0 < shape.prod := by omega
    rw [offset, unravel, Nat.mul_comm i, Nat.mul_add_div hpos, Nat.mul_add_mod, Nat.div_eq_of_lt hlt,
      Nat.mod_eq_of_lt hlt, ih, Nat.add_zero]

/-! ## Tensors -/

/-- A shape and its cells. -/
structure Tensor (α : Type*) where
  shape : List ℕ
  data : List α
  size_eq : data.length = shape.prod

namespace Tensor

variable {α β : Type*}

/-- The tensor with `f idx` at each index. -/
def build (shape : List ℕ) (f : List ℕ → α) : Tensor α where
  shape := shape
  data := (List.range shape.prod).map fun p => f (unravel shape p)
  size_eq := by simp

def map (f : α → β) (t : Tensor α) : Tensor β where
  shape := t.shape
  data := t.data.map f
  size_eq := (List.length_map f).trans t.size_eq

/-- The same cells in another shape of the same size; other sizes raise. -/
def reshape (t : Tensor α) (shape : List ℕ) : Option (Tensor α) :=
  if h : t.shape.prod = shape.prod then some ⟨shape, t.data, t.size_eq.trans h⟩ else none

@[simp] theorem build_shape (shape : List ℕ) (f : List ℕ → α) : (build shape f).shape = shape := rfl

@[simp] theorem map_shape (t : Tensor α) (f : α → β) : (t.map f).shape = t.shape := rfl

variable [Inhabited α]

def get (t : Tensor α) (idx : List ℕ) : α := t.data.getD (offset t.shape idx) default

/-- Axis `a` of the result is axis `perm[a]` of the tensor. -/
def permute (perm : List ℕ) (t : Tensor α) : Tensor α :=
  build (perm.map fun a => t.shape.getD a 0) fun idx =>
    t.get ((List.range t.shape.length).map fun b => idx.getD (perm.idxOf b) 0)

/-- Entry `i` of the first axis. -/
def select (t : Tensor α) (i : ℕ) : Tensor α := build t.shape.tail fun idx => t.get (i :: idx)

/-- The cells of the last axis taken `n` at a time; a last axis that is no multiple of `n` raises. -/
def viewAs (n : ℕ) (f : (ℕ → α) → β) (t : Tensor α) : Option (Tensor β) :=
  match t.shape.getLast? with
  | some d =>
    if 0 < n ∧ d % n = 0 then
      some (build (t.shape.dropLast ++ [d / n]) fun idx =>
        f fun j => t.get (idx.dropLast ++ [idx.getLastD 0 * n + j]))
    else none
  | none => none

/-- `squeeze(-1)`. -/
def squeezeLast (t : Tensor α) : Tensor α :=
  if t.shape.getLast? = some 1 then build t.shape.dropLast fun idx => t.get (idx ++ [0]) else t

/-! ## What is at an index -/

section Get

variable {t t' : Tensor α} {shape idx : List ℕ}

theorem get_build (h : InBounds shape idx) (f : List ℕ → α) : (build shape f).get idx = f idx := by
  have hlt := offset_lt h
  show ((List.range shape.prod).map fun p => f (unravel shape p)).getD (offset shape idx) default = _
  rw [List.getD_eq_getElem _ _ (by simpa using hlt)]
  simp [unravel_offset h]

theorem get_map [Inhabited β] (h : InBounds t.shape idx) (f : α → β) : (t.map f).get idx = f (t.get idx) := by
  have hlt : offset t.shape idx < t.data.length := t.size_eq ▸ offset_lt h
  show (t.data.map f).getD _ _ = f (t.data.getD _ _)
  rw [List.getD_eq_getElem _ _ (by simpa using hlt), List.getD_eq_getElem _ _ hlt, List.getElem_map]
  rfl

/-- A tensor is its shape and what is at its indices. -/
theorem ext_get (hshape : t.shape = t'.shape) (h : ∀ idx, InBounds t.shape idx → t.get idx = t'.get idx) : t = t' := by
  obtain ⟨shape, data, hsize⟩ := t
  obtain ⟨shape', data', hsize'⟩ := t'
  obtain rfl : shape = shape' := hshape
  have hdata : data = data' := by
    refine List.ext_getElem (hsize.trans hsize'.symm) fun p hp hp' => ?_
    have hcell : data.getD (offset shape (unravel shape p)) default =
        data'.getD (offset shape (unravel shape p)) default := h _ (unravel_inBounds (hsize ▸ hp))
    rwa [offset_unravel (hsize ▸ hp), List.getD_eq_getElem _ _ hp, List.getD_eq_getElem _ _ hp'] at hcell
  subst hdata
  rfl

/-- A reshape to the same size keeps the place of every cell. -/
theorem exists_reshape (h : t.shape.prod = shape.prod) : ∃ t', t.reshape shape = some t' ∧ t'.shape = shape ∧
    ∀ idx idx', offset shape idx' = offset t.shape idx → t'.get idx' = t.get idx := by
  refine ⟨_, dif_pos h, rfl, fun idx idx' hoff => ?_⟩
  show t.data.getD (offset shape idx') default = t.data.getD (offset t.shape idx) default
  rw [hoff]

theorem get_permute {perm : List ℕ} (h : InBounds (perm.map fun a => t.shape.getD a 0) idx) :
    (t.permute perm).get idx = t.get ((List.range t.shape.length).map fun b => idx.getD (perm.idxOf b) 0) :=
  get_build h _

theorem get_select {i : ℕ} (h : InBounds t.shape.tail idx) : (t.select i).get idx = t.get (i :: idx) := get_build h _

/-- Cells taken `n` at a time. -/
theorem exists_viewAs [Inhabited β] {n d : ℕ} (hshape : t.shape = shape ++ [d]) (hn : 0 < n) (hd : d % n = 0)
    (f : (ℕ → α) → β) : ∃ v, t.viewAs n f = some v ∧ v.shape = shape ++ [d / n] ∧
      ∀ idx w, InBounds (shape ++ [d / n]) (idx ++ [w]) →
        v.get (idx ++ [w]) = f fun j => t.get (idx ++ [w * n + j]) := by
  refine ⟨build (shape ++ [d / n]) fun idx => f fun j => t.get (idx.dropLast ++ [idx.getLastD 0 * n + j]), ?_, rfl,
    fun idx w hw => ?_⟩
  · unfold viewAs
    simp [hshape, hn, hd]
  · rw [get_build hw]
    simp

theorem squeezeLast_shape (hshape : t.shape = shape ++ [1]) : t.squeezeLast.shape = shape := by
  unfold squeezeLast
  simp [hshape]

theorem get_squeezeLast (hshape : t.shape = shape ++ [1]) (h : InBounds shape idx) :
    t.squeezeLast.get idx = t.get (idx ++ [0]) := by
  unfold squeezeLast
  rw [if_pos (by simp [hshape]), get_build (by simpa [hshape] using h)]

end Get

end Tensor

end ExpertServe.Lib
