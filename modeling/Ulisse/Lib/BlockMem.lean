import Mathlib.Data.List.Basic
import Mathlib.Logic.Function.Basic

/-!
# Lib.BlockMem — memory as a family of blocks of fixed size

`Mem α len` gives every block `b` its `len b` cells; a pointer is a block and an offset, and
`Room len p n` says that `n` cells lie at `p`.  A store outside the block is not defined (`store`
is `none`), so a program that stores through it shows that it stays inside.  `view m p` is what can
be read from `p` to the end of its block.  `memcpy` copies `n` cells between two places with room
for them, which is all that its rules speak of.
-/

namespace BlockMem

/-- A pointer into block `block`, `off` cells from its start. -/
structure Ptr (β : Type) where
  block : β
  off : ℕ
  deriving DecidableEq, Repr

/-- Pointer arithmetic inside a block. -/
def Ptr.add {β : Type} (p : Ptr β) (n : ℕ) : Ptr β := ⟨p.block, p.off + n⟩

/-- The cells of every block. -/
@[ext] structure Mem {β : Type} (α : Type) (len : β → ℕ) where
  cells : β → List α
  length_cells : ∀ b, (cells b).length = len b

variable {β α : Type} {len : β → ℕ}

/-- `n` cells lie at `p`. -/
def Room (len : β → ℕ) (p : Ptr β) (n : ℕ) : Prop := p.off + n ≤ len p.block

instance (p : Ptr β) (n : ℕ) : Decidable (Room len p n) := inferInstanceAs (Decidable (_ ≤ _))

/-- The cells from `p` to the end of its block. -/
def view (m : Mem α len) (p : Ptr β) : List α := (m.cells p.block).drop p.off

@[simp] theorem Ptr.add_block (p : Ptr β) (n : ℕ) : (p.add n).block = p.block := rfl

@[simp] theorem Ptr.add_off (p : Ptr β) (n : ℕ) : (p.add n).off = p.off + n := rfl

theorem view_length (m : Mem α len) (p : Ptr β) : (view m p).length = len p.block - p.off := by
  rw [view, List.length_drop, m.length_cells]

theorem Room.mono {p : Ptr β} {n k : ℕ} (h : Room len p n) (hk : k ≤ n) : Room len p k := by
  unfold Room at *
  omega

variable [DecidableEq β]

/-- Replace the cell at `p`. -/
def write (m : Mem α len) (p : Ptr β) (x : α) : Mem α len where
  cells := Function.update m.cells p.block ((m.cells p.block).set p.off x)
  length_cells := by
    intro b
    by_cases h : b = p.block
    · subst h
      rw [Function.update_self, List.length_set, m.length_cells]
    · rw [Function.update_of_ne h, m.length_cells]

/-- `*p = x`: defined only inside the block. -/
def store (m : Mem α len) (p : Ptr β) (x : α) : Option (Mem α len) :=
  if Room len p 1 then some (write m p x) else none

/-- The first `n` cells at `src` replace those at `dst`, both having room for them. -/
def memcpy (m : Mem α len) (dst src : Ptr β) (n : ℕ) : Mem α len :=
  if h : Room len dst n ∧ Room len src n then
    { cells := Function.update m.cells dst.block ((m.cells dst.block).take dst.off ++
        (view m src).take n ++ (m.cells dst.block).drop (dst.off + n))
      length_cells := by
        intro b
        by_cases hb : b = dst.block
        · subst hb
          have h1 := m.length_cells dst.block
          have h2 := view_length m src
          obtain ⟨hd, hs⟩ := h
          unfold Room at hd hs
          simp only [Function.update_self, List.length_append, List.length_take, List.length_drop]
          omega
        · rw [Function.update_of_ne hb, m.length_cells] }
  else m

/-! ### Stores -/

section Store

variable {m m' : Mem α len} {p : Ptr β} {x : α} {k : ℕ}

theorem store_of_room (h : Room len p (k + 1)) :
    store m (p.add k) x = some (write m (p.add k) x) := by
  have h1 : Room len (p.add k) 1 := by
    unfold Room at *
    simp only [Ptr.add_off, Ptr.add_block]
    omega
  rw [store, if_pos h1]

theorem store_some (h : store m p x = some m') : m' = write m p x ∧ Room len p 1 := by
  unfold store at h
  split_ifs at h with h1
  exact ⟨(Option.some_inj.mp h).symm, h1⟩

theorem write_other {b : β} (h : b ≠ p.block) : (write m p x).cells b = m.cells b := by
  simp only [write, Function.update_of_ne h]

theorem view_write (m : Mem α len) (p : Ptr β) (k : ℕ) (x : α) :
    view (write m (p.add k) x) p = (view m p).set k x := by
  simp only [view, write, Ptr.add_block, Ptr.add_off, Function.update_self]
  rw [List.drop_set, if_neg (by omega), Nat.add_sub_cancel_left]

/-- Storing right behind a known prefix extends it. -/
theorem view_write_prefix (xs : List α) (hr : Room len p (xs.length + 1))
    (h : (view m p).take xs.length = xs) :
    (view (write m (p.add xs.length) x) p).take (xs.length + 1) = xs ++ [x] := by
  have hlt : xs.length < (view m p).length := by
    rw [view_length]
    unfold Room at hr
    omega
  rw [view_write, List.take_add_one, List.take_set, List.getElem?_set_self hlt,
    List.set_eq_of_length_le (by rw [List.length_take]; omega), h]
  rfl

end Store

/-! ### Copies -/

section Copy

variable {m : Mem α len} {dst src : Ptr β} {n : ℕ}

theorem memcpy_other {b : β} (h : b ≠ dst.block) : (memcpy m dst src n).cells b = m.cells b := by
  unfold memcpy
  split_ifs
  · simp only [Function.update_of_ne h]
  · rfl

/-- A copy makes the destination read what the source read. -/
theorem view_memcpy (hd : Room len dst n) (hs : Room len src n) :
    (view (memcpy m dst src n) dst).take n = (view m src).take n := by
  have hlen : ((view m src).take n).length = n := by
    rw [List.length_take, view_length]
    unfold Room at hs
    omega
  have hblock := m.length_cells dst.block
  unfold Room at hd
  unfold memcpy
  rw [dif_pos ⟨hd, hs⟩]
  simp only [view, Function.update_self] at hlen ⊢
  rw [List.append_assoc, List.drop_append_of_le_length (by rw [List.length_take]; omega),
    List.drop_eq_nil_of_le (by rw [List.length_take]; omega), List.nil_append,
    List.take_left' hlen]

end Copy

end BlockMem
