import ExpertServe.Lib.Copies

/-!
# Buffers of bytes, in one memory

A buffer holds numbers of several types, each type from an offset of its own, and the buffers lie in one memory, each at
its address. A job on numbers is then a job on bytes, and a job on buffers is a job on addresses.

* `Copy.bytes`: a copy of numbers of `size` bytes each, as a copy of bytes; `hits_bytes`, `val_bytes`;
* `Copy.place`: a copy into a buffer, as a copy into memory; `hits_place`, `val_place`;
* `Runs.placed_eq`, `Runs.placed_frame`: what a job on buffers that do not overlap leaves at their addresses.
-/

namespace ExpertServe.Lib

variable {κ α : Type*}

/-! ## Numbers in a buffer -/

/-- Byte `j % size` of cell `j / size`: a copy of numbers of `size` bytes each, which start at byte `base`. -/
def Copy.bytes (base size : ℕ) (enc : α → ℕ → UInt8) (c : Copy κ α) : Copy κ UInt8 :=
  ⟨c.dst, base + size * c.off, size * c.len, fun j => enc (c.val (j / size)) (j % size)⟩

section Bytes

variable {base size : ℕ} {enc : α → ℕ → UInt8} {c : Copy κ α} {k : κ} {a : ℕ}

theorem hits_bytes (hsize : 0 < size) :
    (c.bytes base size enc).Hits k a ↔ base ≤ a ∧ c.Hits k ((a - base) / size) := by
  have hlo : c.off ≤ (a - base) / size ↔ size * c.off ≤ a - base := by
    rw [Nat.le_div_iff_mul_le hsize, Nat.mul_comm]
  have hhi : (a - base) / size < c.off + c.len ↔ a - base < size * c.off + size * c.len := by
    rw [Nat.div_lt_iff_lt_mul hsize, Nat.mul_comm, Nat.mul_add]
  unfold Copy.Hits Copy.bytes
  rw [hlo, hhi]
  show (c.dst = k ∧ base + size * c.off ≤ a ∧ a < base + size * c.off + size * c.len) ↔ _
  constructor
  · rintro ⟨hk, h, h'⟩
    exact ⟨by omega, hk, by omega, by omega⟩
  · rintro ⟨h, hk, h', h''⟩
    exact ⟨hk, by omega, by omega⟩

theorem val_bytes (hhit : (c.bytes base size enc).Hits k a) :
    (c.bytes base size enc).val (a - (c.bytes base size enc).off) =
      enc (c.val ((a - base) / size - c.off)) ((a - base) % size) := by
  obtain ⟨-, hlo, -⟩ := hhit
  have hlo : base + size * c.off ≤ a := hlo
  have hcell : a - (base + size * c.off) = a - base - size * c.off := by omega
  unfold Copy.bytes
  simp only [hcell]
  rw [Nat.sub_mul_div, Nat.sub_mul_mod (by omega)]

end Bytes

/-! ## Buffers in memory -/

/-- A copy into the buffer at address `base k`. -/
def Copy.place (base : κ → ℕ) (c : Copy κ α) : Copy Unit α := ⟨(), base c.dst + c.off, c.len, c.val⟩

/-- No two of the buffers `dom`, with `size k` cells from address `base k` on, overlap. -/
def Placed (dom : Set κ) (base size : κ → ℕ) : Prop :=
  ∀ k ∈ dom, ∀ k' ∈ dom, k ≠ k' → base k + size k ≤ base k' ∨ base k' + size k' ≤ base k

/-- The copies stay inside buffers of `dom`. -/
def Within (dom : Set κ) (size : κ → ℕ) (cs : List (Copy κ α)) : Prop :=
  ∀ c ∈ cs, c.dst ∈ dom ∧ c.off + c.len ≤ size c.dst

section Place

variable {dom : Set κ} {base size : κ → ℕ} {cs : List (Copy κ α)} {c : Copy κ α} {k : κ} {a : ℕ}

theorem val_place (hhit : c.Hits k a) : (c.place base).val (base k + a - (c.place base).off) = c.val (a - c.off) := by
  obtain ⟨rfl, hlo, -⟩ := hhit
  unfold Copy.place
  simp only
  congr 1
  omega

/-- A copy that stays in its buffer meets the cells of its own buffer only. -/
theorem hits_place (hplaced : Placed dom base size) (hdst : c.dst ∈ dom) (hfit : c.off + c.len ≤ size c.dst)
    (hk : k ∈ dom) (ha : a < size k) : (c.place base).Hits () (base k + a) ↔ c.Hits k a := by
  unfold Copy.Hits Copy.place
  constructor
  · rintro ⟨-, hlo, hhi⟩
    simp only at hlo hhi
    obtain rfl : c.dst = k := by
      by_contra hne
      rcases hplaced c.dst hdst k hk hne with h | h <;> omega
    exact ⟨rfl, by omega, by omega⟩
  · rintro ⟨rfl, hlo, hhi⟩
    exact ⟨rfl, by simp only; omega, by simp only; omega⟩

/-- **Any order, in memory.** A cell of a buffer that some copy writes, and all that write it alike. -/
theorem Runs.placed_eq {mem mem' : Unit → ℕ → α} (hrun : Runs (cs.map (Copy.place base)) mem mem')
    (hplaced : Placed dom base size) (hwithin : Within dom size cs) (hk : k ∈ dom) (ha : a < size k) {v : α}
    (hhit : ∃ c ∈ cs, c.Hits k a) (hagree : ∀ c ∈ cs, c.Hits k a → c.val (a - c.off) = v) :
    mem' () (base k + a) = v := by
  have hiff : ∀ c ∈ cs, ((c.place base).Hits () (base k + a) ↔ c.Hits k a) :=
    fun c hc => hits_place hplaced (hwithin c hc).1 (hwithin c hc).2 hk ha
  refine hrun.eq_of_agree ?_ fun c' hc' hhit' => ?_
  · obtain ⟨c, hc, hhit⟩ := hhit
    exact ⟨_, List.mem_map_of_mem hc, (hiff c hc).mpr hhit⟩
  · obtain ⟨c, hc, rfl⟩ := List.mem_map.mp hc'
    have hhit := (hiff c hc).mp hhit'
    rw [val_place hhit]
    exact hagree c hc hhit

/-- **Nothing else.** A buffer that no copy names keeps its cells. -/
theorem Runs.placed_frame {mem mem' : Unit → ℕ → α} (hrun : Runs (cs.map (Copy.place base)) mem mem')
    (hplaced : Placed dom base size) (hwithin : Within dom size cs) (hk : k ∈ dom) (ha : a < size k)
    (hdst : ∀ c ∈ cs, c.dst ≠ k) : mem' () (base k + a) = mem () (base k + a) := by
  refine hrun.eq_of_not_hits fun c' hc' hhit' => ?_
  obtain ⟨c, hc, rfl⟩ := List.mem_map.mp hc'
  exact hdst c hc ((hits_place hplaced (hwithin c hc).1 (hwithin c hc).2 hk ha).mp hhit').1

end Place

end ExpertServe.Lib
