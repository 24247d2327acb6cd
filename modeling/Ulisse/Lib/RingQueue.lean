import Mathlib.Data.List.Range
import Mathlib.Data.Nat.ModEq
import Mathlib.Logic.Function.Basic

/-!
# Lib.RingQueue — a bounded queue in a circular array

`RingQueue α cap` holds `size` elements in an array of `cap` cells, the first of them in cell
`start`.  `toList` reads them in order; `put` appends one to a queue with room (`toList_put`) and
`pop` takes the head off a queue that has one (`toList_pop`).  A cell index that goes up by one and
falls back to `0` at `cap` is the index one further on the circle (`next_mod`).
-/

/-- A queue of at most `cap` elements in a circular array. -/
structure RingQueue (α : Type) (cap : ℕ) where
  cells : Fin cap → α
  start : ℕ
  size : ℕ
  start_lt : start < cap
  size_le : size ≤ cap

namespace RingQueue

variable {α : Type} {cap : ℕ}

/-- The cell `i` places behind the head. -/
def slot (q : RingQueue α cap) (i : ℕ) : Fin cap :=
  ⟨(q.start + i) % cap, Nat.mod_lt _ (Nat.zero_lt_of_lt q.start_lt)⟩

/-- The elements, head first. -/
def toList (q : RingQueue α cap) : List α := (List.range q.size).map fun i => q.cells (q.slot i)

/-- The empty queue with its head at cell `0`. -/
def empty (cells : Fin cap → α) (h : 0 < cap) : RingQueue α cap := ⟨cells, 0, 0, h, Nat.zero_le _⟩

/-- Append `x` to a queue that has room. -/
def put (q : RingQueue α cap) (x : α) (h : q.size < cap) : RingQueue α cap :=
  { q with cells := Function.update q.cells (q.slot q.size) x, size := q.size + 1, size_le := h }

/-- Take the head off a queue that has one. -/
def pop (q : RingQueue α cap) (h : 0 < q.size) : RingQueue α cap where
  cells := q.cells
  start := (q.start + 1) % cap
  size := q.size - 1
  start_lt := Nat.mod_lt _ (Nat.zero_lt_of_lt q.start_lt)
  size_le := by have := q.size_le; omega

@[simp] theorem length_toList (q : RingQueue α cap) : q.toList.length = q.size := by
  simp [toList]

@[simp] theorem toList_empty (cells : Fin cap → α) (h : 0 < cap) :
    (empty cells h).toList = [] := rfl

/-- One step on the circle. -/
theorem next_mod {i : ℕ} (h : i < cap) : (i + 1) % cap = if i + 1 ≥ cap then 0 else i + 1 := by
  split_ifs with hge
  · rw [show i + 1 = cap by omega, Nat.mod_self]
  · exact Nat.mod_eq_of_lt (by omega)

theorem slot_inj {q : RingQueue α cap} {i j : ℕ} (hi : i < cap) (hj : j < cap)
    (h : q.slot i = q.slot j) : i = j := by
  have hs := q.start_lt
  simp only [slot, Fin.mk.injEq] at h
  have e := Nat.ModEq.add_left_cancel' q.start (show q.start + i ≡ q.start + j [MOD cap] from h)
  rwa [Nat.ModEq, Nat.mod_eq_of_lt hi, Nat.mod_eq_of_lt hj] at e

/-- **Enqueue**: the new element stands last and the others keep their places. -/
theorem toList_put (q : RingQueue α cap) (x : α) (h : q.size < cap) :
    (q.put x h).toList = q.toList ++ [x] := by
  have hslot : ∀ i, (q.put x h).slot i = q.slot i := fun _ => rfl
  simp only [toList, hslot]
  rw [show (q.put x h).size = q.size + 1 from rfl, List.range_succ, List.map_append]
  congr 1
  · refine List.map_congr_left fun i hi => ?_
    have hi : i < q.size := List.mem_range.mp hi
    have hne : q.slot i ≠ q.slot q.size := fun e => by
      have := slot_inj (by omega) h e
      omega
    simp only [put, Function.update_of_ne hne]
  · simp [put]

/-- **Dequeue**: the head comes off and the others keep their order. -/
theorem toList_pop (q : RingQueue α cap) (h : 0 < q.size) :
    q.toList = q.cells (q.slot 0) :: (q.pop h).toList := by
  have hslot : ∀ i, (q.pop h).slot i = q.slot (i + 1) := fun i => by
    simp only [slot, pop, Fin.mk.injEq]
    rw [Nat.mod_add_mod, Nat.add_assoc, Nat.add_comm 1 i]
  obtain ⟨n, hn⟩ : ∃ n, q.size = n + 1 := ⟨q.size - 1, by omega⟩
  simp only [toList, hslot]
  rw [show (q.pop h).size = n by simp [pop, hn], hn, List.range_succ_eq_map, List.map_cons,
    List.map_map]
  rfl

end RingQueue
