import Ulisse.Teensy.Eeprom

/-!
# Teensy.EepromRoundTrip — what was written is read back

What a caller of `EEPROM_write` and `EEPROM_read` is after: the cells from `dest` on hold the
buffer, the others are left alone, and the buffer is read back.  `EEPROM_write` gives this for
every content only if the cell it starts at, `size`, does not differ from `dest`, or if nothing is
to be written at either.
-/

namespace Ulisse

open ByteMem EEPROM

/-- The cell `i` is one of the `k` from `first` on. -/
def InCells (first k i : ℕ) : Prop := first ≤ i ∧ i < first + k

/-- The cells from `dest` on hold what fits of the buffer, the others what they held, and reading
gives the buffer and leaves the rest of `out` alone. -/
structure RoundTrip (ram ram' : FlexRam) (dest size : UInt16) (buf out : List UInt8) : Prop where
  stored : ∀ i : Fin eepromSize, InCells dest.toNat (clipped dest.toNat size.toNat) i →
    buf[i.val - dest.toNat]? = some (ram' i)
  others : ∀ i : Fin eepromSize, ¬ InCells dest.toNat (clipped dest.toNat size.toNat) i →
    ram' i = ram i
  readBack : EEPROM.read ram' out dest size =
    some (buf.take (clipped dest.toNat size.toNat) ++ out.drop (clipped dest.toNat size.toNat))

/-- `EEPROM_write` returns, and has done that. -/
def WritesBack (ram : FlexRam) (dest size : UInt16) (buf out : List UInt8) : Prop :=
  ∃ ram' as, EEPROM.write ram dest buf size = some (ram', as) ∧
    RoundTrip ram ram' dest size buf out

/-- A copy of the buffer to the cells from `size` on is no other than one to those from `dest` on:
the two agree where they overlap, and what only one of them reaches holds its byte already. -/
structure SameCells (ram : FlexRam) (buf : List UInt8) (dest size : ℕ) : Prop where
  both : ∀ i, InCells dest (clipped dest size) i → InCells size (clipped size size) i →
    buf[i - dest]? = buf[i - size]?
  missed : ∀ i : Fin eepromSize, InCells dest (clipped dest size) i →
    ¬ InCells size (clipped size size) i → buf[i.val - dest]? = some (ram i)
  stray : ∀ i : Fin eepromSize, ¬ InCells dest (clipped dest size) i →
    InCells size (clipped size size) i → buf[i.val - size]? = some (ram i)

section Cells

variable {ram : FlexRam} {dest size : UInt16} {buf out : List UInt8} {first k : ℕ}
  {i : Fin eepromSize}

theorem overwrite_inCells (hk : k ≤ buf.length) (hi : InCells first k i) :
    buf[i.val - first]? = some (overwrite ram first (buf.take k) i) := by
  obtain ⟨hlo, hhi⟩ := hi
  have hlt : i.val - first < (buf.take k).length := by
    rw [List.length_take]
    omega
  rw [overwrite_inside hlo hlt, List.getElem_take]
  exact List.getElem?_eq_getElem (by omega)

theorem overwrite_notInCells (hi : ¬ InCells first k i) :
    overwrite ram first (buf.take k) i = ram i := by
  refine overwrite_outside ?_
  rw [List.length_take]
  rw [InCells, not_and_or] at hi
  omega

/-- Cells that hold the buffer are read back. -/
theorem read_stored (hk : clipped dest.toNat size.toNat ≤ buf.length)
    (hout : clipped dest.toNat size.toNat ≤ out.length)
    (hstored : ∀ i : Fin eepromSize, InCells dest.toNat (clipped dest.toNat size.toNat) i →
      buf[i.val - dest.toNat]? = some (ram i)) :
    EEPROM.read ram out dest size = some (buf.take (clipped dest.toNat size.toNat) ++
      out.drop (clipped dest.toNat size.toNat)) := by
  have hlen : (buf.take (clipped dest.toNat size.toNat)).length =
      clipped dest.toNat size.toNat := by
    rw [List.length_take]
    omega
  have hclip := clipped_eq dest.toNat size.toNat
  have hcells : ∀ j (hj : j < (buf.take (clipped dest.toNat size.toNat)).length),
      ∃ h : dest.toNat + j < eepromSize,
        ram ⟨dest.toNat + j, h⟩ = (buf.take (clipped dest.toNat size.toNat))[j] := by
    intro j hj
    rw [hlen] at hj
    have hin : dest.toNat + j < 2048 := by omega
    have hcell := hstored ⟨dest.toNat + j, hin⟩
      ⟨Nat.le_add_right _ _, Nat.add_lt_add_left hj _⟩
    rw [Nat.add_sub_cancel_left, List.getElem?_eq_getElem (by omega), Option.some.injEq] at hcell
    exact ⟨hin, by rw [List.getElem_take, hcell]⟩
  have hread : EEPROM.read ram out dest size = _ := read_eq hlen hcells (hlen.trans_le hout)
  rwa [hlen] at hread

/-- **What is written** is read back exactly if the two copies are the same. -/
theorem writesBack_iff (hbuf : buf.length = size.toNat)
    (hout : clipped dest.toNat size.toNat ≤ out.length) :
    WritesBack ram dest size buf out ↔ SameCells ram buf dest.toNat size.toNat := by
  obtain ⟨as, hwrite⟩ := write_eq ram dest hbuf.ge
  have hk : clipped dest.toNat size.toNat ≤ buf.length := by
    rw [hbuf]
    exact Nat.min_le_left _ _
  have hm : clipped size.toNat size.toNat ≤ buf.length := by
    rw [hbuf]
    exact Nat.min_le_left _ _
  have hclip := clipped_eq dest.toNat size.toNat
  constructor
  · rintro ⟨ram', as', hwrite', h⟩
    rw [hwrite] at hwrite'
    simp only [Option.some.injEq, Prod.mk.injEq] at hwrite'
    obtain ⟨rfl, rfl⟩ := hwrite'
    constructor
    · intro i hi hs
      have hin : i < 2048 := by
        obtain ⟨hlo, hlt⟩ := hi
        omega
      exact (h.stored ⟨i, hin⟩ hi).trans (overwrite_inCells (i := ⟨i, hin⟩) hm hs).symm
    · intro i hi hs
      exact (h.stored i hi).trans (congrArg some (overwrite_notInCells hs))
    · intro i hi hs
      exact (overwrite_inCells hm hs).trans (congrArg some (h.others i hi))
  · intro h
    have hstored : ∀ i : Fin eepromSize, InCells dest.toNat (clipped dest.toNat size.toNat) i →
        buf[i.val - dest.toNat]? =
          some (overwrite ram size.toNat (buf.take (clipped size.toNat size.toNat)) i) := by
      intro i hi
      by_cases hs : InCells size.toNat (clipped size.toNat size.toNat) i
      · exact (h.both i hi hs).trans (overwrite_inCells hm hs)
      · exact (h.missed i hi hs).trans (congrArg some (overwrite_notInCells hs).symm)
    refine ⟨_, as, hwrite, hstored, ?_, read_stored hk hout hstored⟩
    intro i hi
    by_cases hs : InCells size.toNat (clipped size.toNat size.toNat) i
    · exact Option.some.inj ((overwrite_inCells hm hs).symm.trans (h.stray i hi hs))
    · exact overwrite_notInCells hs

/-- **Zeros** overwritten with ones show every cell that is reached by one copy only. -/
theorem sameCells_zeros
    (h : SameCells (fun _ => 0) (List.replicate size.toNat 1) dest.toNat size.toNat) :
    ∀ i : Fin eepromSize, InCells dest.toNat (clipped dest.toNat size.toNat) i ↔
      InCells size.toNat (clipped size.toNat size.toNat) i := by
  have hone : ∀ {j : ℕ}, (List.replicate size.toNat (1 : UInt8))[j]? ≠ some 0 := by
    intro j hj
    exact absurd (List.eq_of_mem_replicate (List.mem_of_getElem? hj)) (by decide)
  intro i
  constructor
  · intro hi
    by_contra hs
    exact hone (h.missed i hi hs)
  · intro hs
    by_contra hi
    exact hone (h.stray i hi hs)

/-- A copy that reaches all cells of another one does not start behind it. -/
theorem starts_before {a b n : ℕ} (hn : 0 < n) (ha : a < 2048)
    (h : ∀ i : Fin eepromSize, InCells a (clipped a n) i → InCells b (clipped b n) i) : b ≤ a := by
  have hclip := clipped_eq a n
  exact (h ⟨a, ha⟩ ⟨Nat.le_refl a, show a < a + clipped a n by omega⟩).1

/-- Two copies reach the same cells only if they start at the same one, or reach none. -/
theorem ranges_eq {a b n : ℕ} (h : ∀ i : Fin eepromSize,
    InCells a (clipped a n) i ↔ InCells b (clipped b n) i) :
    a = b ∨ n = 0 ∨ (2048 ≤ a ∧ 2048 ≤ b) := by
  rcases Nat.eq_zero_or_pos n with h0 | hn
  · exact Or.inr (Or.inl h0)
  · by_cases ha : a < 2048
    · have hba := starts_before hn ha fun i => (h i).mp
      have hab := starts_before hn (Nat.lt_of_le_of_lt hba ha) fun i => (h i).mpr
      exact Or.inl (Nat.le_antisymm hab hba)
    · by_cases hb : b < 2048
      · exact absurd (starts_before hn hb fun i => (h i).mpr) (by omega)
      · exact Or.inr (Or.inr ⟨by omega, by omega⟩)

/-- Copies to the same cells, or to none, come to the same. -/
theorem sameCells_of {a n : ℕ} (h : a = n ∨ n = 0 ∨ (2048 ≤ a ∧ 2048 ≤ n)) :
    SameCells ram buf a n := by
  rcases h with rfl | h
  · exact ⟨fun i _ _ => rfl, fun i hi hs => absurd hi hs, fun i hi hs => absurd hs hi⟩
  · have ha := clipped_eq a n
    have hn := clipped_eq n n
    have hnone : ∀ i, ¬ InCells a (clipped a n) i ∧ ¬ InCells n (clipped n n) i := by
      intro i
      rw [InCells, InCells]
      omega
    exact ⟨fun i hi _ => absurd hi (hnone i).1, fun i hi _ => absurd hi (hnone i).1,
      fun i _ hs => absurd hs (hnone i).2⟩

end Cells

/-- **EEPROM round trip**: the write and the read give what their caller is after exactly if the
copies of the buffer to the cells from `dest` and from `size` on come to the same; and they do so
whatever the cells and the buffer hold exactly if `dest` is `size`, or if no byte fits at either. -/
theorem eeprom_roundTrip_iff (dest size : UInt16) :
    (∀ ram buf out, buf.length = size.toNat → clipped dest.toNat size.toNat ≤ out.length →
      (WritesBack ram dest size buf out ↔ SameCells ram buf dest.toNat size.toNat)) ∧
    ((∀ ram buf out, buf.length = size.toNat → clipped dest.toNat size.toNat ≤ out.length →
      WritesBack ram dest size buf out) ↔
        dest = size ∨ size = 0 ∨ (2048 ≤ dest ∧ 2048 ≤ size)) := by
  have hcond : (dest = size ∨ size = 0 ∨ (2048 ≤ dest ∧ 2048 ≤ size)) ↔
      (dest.toNat = size.toNat ∨ size.toNat = 0 ∨ (2048 ≤ dest.toNat ∧ 2048 ≤ size.toNat)) :=
    or_congr UInt16.toNat_inj.symm (or_congr UInt16.toNat_inj.symm
      (and_congr UInt16.le_iff_toNat_le UInt16.le_iff_toNat_le))
  refine ⟨fun ram buf out hbuf hout => writesBack_iff hbuf hout, ?_, ?_⟩
  · intro hall
    have hbuf : (List.replicate size.toNat (1 : UInt8)).length = size.toNat :=
      List.length_replicate
    have hout : clipped dest.toNat size.toNat ≤ (List.replicate size.toNat (0 : UInt8)).length := by
      rw [List.length_replicate]
      exact Nat.min_le_left _ _
    have hsame := (writesBack_iff hbuf hout).mp (hall (fun _ => 0) _ _ hbuf hout)
    exact hcond.mpr (ranges_eq (sameCells_zeros hsame))
  · intro h ram buf out hbuf hout
    exact (writesBack_iff hbuf hout).mpr (sameCells_of (hcond.mp h))

/-- Four bytes for the cells from 0 on are written to the cells from 4 on. -/
theorem eeprom_counterexample :
    (EEPROM.write (fun _ => 0) 0 [1, 2, 3, 4] 4).map (fun x => (x.1 0, x.1 4)) = some (0, 1) ∧
    ¬ WritesBack (fun _ => 0) 0 4 [1, 2, 3, 4] [0, 0, 0, 0] := by
  have hcells : (EEPROM.write (fun _ => 0) 0 [1, 2, 3, 4] 4).map (fun x => (x.1 0, x.1 4)) =
      some (0, 1) := by decide +kernel
  refine ⟨hcells, ?_⟩
  rintro ⟨ram', as, hwrite, h⟩
  have hfirst : some 1 = some (ram' 0) := h.stored 0 ⟨Nat.le_refl 0, by decide⟩
  rw [hwrite, Option.map_some, Option.some.injEq, Prod.mk.injEq] at hcells
  have hzero : ram' 0 = 0 := hcells.1
  rw [hzero] at hfirst
  exact absurd hfirst (by decide)

end Ulisse
