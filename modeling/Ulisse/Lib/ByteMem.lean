import Mathlib.Data.Nat.Digits.Defs
import Mathlib.Data.List.OfFn
import Mathlib.Tactic.SplitIfs

/-!
# Lib.ByteMem — byte cells that are read and written in aligned units

Memories of `n` cells.  `overwrite` copies a list to consecutive cells, `slice` reads some back, and
`load` and `store` go through units of `w` bytes, little-endian, that must be aligned and in range.
A copy can be cut anywhere (`overwrite_append`), so it does not matter in which units it is made.
-/

namespace ByteMem

variable {n : ℕ}

/-! ## Ranges of cells -/

section Range

variable {α : Type}

/-- The cells after `xs` is copied to those from `off` on. -/
def overwrite (m : Fin n → α) (off : ℕ) (xs : List α) : Fin n → α := fun i =>
  if h : off ≤ i.val ∧ i.val - off < xs.length then xs[i.val - off] else m i

/-- The `w` cells from `off` on. -/
def slice (m : Fin n → α) (off w : ℕ) (h : off + w ≤ n) : List α :=
  List.ofFn fun j : Fin w => m ⟨off + j.val, by omega⟩

variable {m : Fin n → α} {off w : ℕ} {xs ys : List α} {i : Fin n}

theorem overwrite_inside (h1 : off ≤ i.val) (h2 : i.val - off < xs.length) :
    overwrite m off xs i = xs[i.val - off] :=
  dif_pos ⟨h1, h2⟩

theorem overwrite_outside (h : i.val < off ∨ off + xs.length ≤ i.val) :
    overwrite m off xs i = m i :=
  dif_neg (by omega)

@[simp] theorem overwrite_nil (m : Fin n → α) (off : ℕ) : overwrite m off [] = m := by
  funext i
  exact dif_neg (by simp)

/-- **A copy can be cut** anywhere. -/
theorem overwrite_append (m : Fin n → α) (off : ℕ) (xs ys : List α) :
    overwrite m off (xs ++ ys) = overwrite (overwrite m off xs) (off + xs.length) ys := by
  funext i
  by_cases hlo : i.val < off
  · rw [overwrite_outside (Or.inl hlo), overwrite_outside (Or.inl (by omega)),
      overwrite_outside (Or.inl hlo)]
  · by_cases hx : i.val - off < xs.length
    · rw [overwrite_inside (by omega) (by rw [List.length_append]; omega),
        overwrite_outside (Or.inl (by omega)), overwrite_inside (by omega) hx,
        List.getElem_append_left hx]
    · by_cases hy : i.val - (off + xs.length) < ys.length
      · rw [overwrite_inside (by omega) (by rw [List.length_append]; omega),
          overwrite_inside (by omega) hy, List.getElem_append_right (by omega)]
        simp only [Nat.sub_sub]
      · rw [overwrite_outside (Or.inr (by rw [List.length_append]; omega)),
          overwrite_outside (Or.inr (by omega)), overwrite_outside (Or.inr (by omega))]

/-- A copy that is made again changes nothing. -/
theorem overwrite_twice (m : Fin n → α) (off : ℕ) (xs : List α) :
    overwrite (overwrite m off xs) off xs = overwrite m off xs := by
  funext i
  by_cases hi : off ≤ i.val ∧ i.val - off < xs.length
  · rw [overwrite_inside hi.1 hi.2, overwrite_inside hi.1 hi.2]
  · exact overwrite_outside (by omega)

/-- Cells that hold all of a list hold the first part of it. -/
theorem overwrite_left (h : overwrite m off (xs ++ ys) = m) : overwrite m off xs = m := by
  funext i
  by_cases hi : off ≤ i.val ∧ i.val - off < xs.length
  · obtain ⟨hlo, hx⟩ := hi
    have hxy : i.val - off < (xs ++ ys).length := by
      rw [List.length_append]
      omega
    calc overwrite m off xs i = xs[i.val - off] := overwrite_inside hlo hx
      _ = (xs ++ ys)[i.val - off] := (List.getElem_append_left hx).symm
      _ = overwrite m off (xs ++ ys) i := (overwrite_inside hlo hxy).symm
      _ = m i := congrFun h i
  · exact overwrite_outside (by omega)

@[simp] theorem length_slice (h : off + w ≤ n) : (slice m off w h).length = w :=
  List.length_ofFn

theorem getElem_slice (h : off + w ≤ n) {j : ℕ} (hj : j < (slice m off w h).length) :
    (slice m off w h)[j] = m ⟨off + j, by rw [length_slice] at hj; omega⟩ := by
  simp only [slice, List.getElem_ofFn]

/-- What the cells hold already may be copied to them. -/
theorem overwrite_slice (h : off + w ≤ n) : overwrite m off (slice m off w h) = m := by
  funext i
  by_cases hi : off ≤ i.val ∧ i.val - off < w
  · rw [overwrite_inside hi.1 (by rw [length_slice]; exact hi.2), getElem_slice]
    congr 1
    apply Fin.ext
    show off + (i.val - off) = i.val
    omega
  · exact overwrite_outside (by rw [length_slice]; omega)

/-- The cells that were copied to. -/
theorem slice_overwrite (hlen : xs.length = w) (h : off + w ≤ n) :
    slice (overwrite m off xs) off w h = xs := by
  apply List.ext_getElem ((length_slice h).trans hlen.symm)
  intro j h1 h2
  rw [getElem_slice h h1, overwrite_inside (Nat.le_add_right off j)]
  · simp only [Nat.add_sub_cancel_left]
  · rw [Nat.add_sub_cancel_left]
    exact h2

end Range

/-! ## Little-endian words -/

/-- The number that bytes make up, the first of them the lowest. -/
def le (bs : List UInt8) : ℕ := Nat.ofDigits 256 (bs.map UInt8.toNat)

/-- The `w` lowest bytes of a number. -/
def bytesLE : ℕ → ℕ → List UInt8
  | 0, _ => []
  | w + 1, v => UInt8.ofNat v :: bytesLE w (v / 256)

@[simp] theorem le_nil : le [] = 0 := rfl

@[simp] theorem le_cons (b : UInt8) (bs : List UInt8) : le (b :: bs) = b.toNat + 256 * le bs :=
  Nat.ofDigits_cons

/-- The bytes of a number made up of bytes. -/
theorem bytesLE_le (bs : List UInt8) : bytesLE bs.length (le bs) = bs := by
  induction bs with
  | nil => rfl
  | cons b bs ih =>
    have hb := b.toNat_lt
    rw [List.length_cons, bytesLE, le_cons, show (b.toNat + 256 * le bs) / 256 = le bs by omega, ih]
    congr 1
    apply UInt8.toNat_inj.mp
    rw [UInt8.toNat_ofNat']
    omega

/-- The number that the lowest bytes of a number make up. -/
theorem le_bytesLE (w v : ℕ) : le (bytesLE w v) = v % 256 ^ w := by
  induction w generalizing v with
  | zero => exact (Nat.mod_one v).symm
  | succ w ih =>
    rw [bytesLE, le_cons, ih, UInt8.toNat_ofNat', show 256 ^ (w + 1) = 256 * 256 ^ w from
      Nat.pow_succ', Nat.mod_mul]

@[simp] theorem length_bytesLE (w v : ℕ) : (bytesLE w v).length = w := by
  induction w generalizing v with
  | zero => rfl
  | succ w ih => rw [bytesLE, List.length_cons, ih]

theorem le_lt (bs : List UInt8) : le bs < 256 ^ bs.length := by
  rw [← bytesLE_le bs, le_bytesLE, length_bytesLE]
  exact Nat.mod_lt _ (Nat.pow_pos (Nat.succ_pos 255))

/-- Numbers of as many bytes differ if the bytes do. -/
theorem le_inj {bs cs : List UInt8} (hlen : bs.length = cs.length) (h : le bs = le cs) :
    bs = cs := by
  rw [← bytesLE_le bs, h, hlen, bytesLE_le]

/-- A byte joined to the bits above those of `v`. -/
theorem or_shift {v b k : ℕ} (hv : v < 2 ^ k) : v ||| b <<< k = v + b * 2 ^ k := by
  rw [Nat.or_comm, ← Nat.shiftLeft_add_eq_or_of_lt hv, Nat.shiftLeft_eq, Nat.add_comm]

/-! ## Aligned units -/

/-- A unit of `w` bytes can be accessed at `off`. -/
def Accessible (n w off : ℕ) : Prop := off % w = 0 ∧ off + w ≤ n

instance (n w off : ℕ) : Decidable (Accessible n w off) :=
  inferInstanceAs (Decidable (off % w = 0 ∧ off + w ≤ n))

/-- The word in a unit, if it can be accessed. -/
def load (m : Fin n → UInt8) (w off : ℕ) : Option ℕ :=
  if h : Accessible n w off then some (le (slice m off w h.2)) else none

/-- The memory after a word is stored in a unit, if that can be accessed. -/
def store (m : Fin n → UInt8) (w off v : ℕ) : Option (Fin n → UInt8) :=
  if Accessible n w off then some (overwrite m off (bytesLE w v)) else none

variable {m : Fin n → UInt8} {off : ℕ} {bs : List UInt8}

/-- A store of a word is a copy of its bytes. -/
theorem store_le (h : Accessible n bs.length off) :
    store m bs.length off (le bs) = some (overwrite m off bs) := by
  rw [store, if_pos h, bytesLE_le]

/-- What is loaded from a unit after its bytes were copied to it. -/
theorem load_overwrite (h : Accessible n bs.length off) :
    load (overwrite m off bs) bs.length off = some (le bs) := by
  rw [load, dif_pos h, slice_overwrite rfl h.2]

/-- **A unit that holds the word** need not be stored. -/
theorem overwrite_of_load (h : load m bs.length off = some (le bs)) :
    overwrite m off bs = m := by
  by_cases hacc : Accessible n bs.length off
  · rw [load, dif_pos hacc, Option.some.injEq] at h
    rw [← le_inj (length_slice hacc.2) h]
    exact overwrite_slice hacc.2
  · rw [load, dif_neg hacc] at h
    cases h

end ByteMem
