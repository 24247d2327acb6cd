import Ulisse.Lib.Run
import Ulisse.Teensy.EepromRoundTrip

/-!
# Teensy.EepromLoop — the accesses of `EEPROM_write`

The accesses that the loop makes are replayed on the FlexRAM, so that what is said of an access is
said of the cells it finds.  The loop refines a copy of bytes, aligned and in range at every access
(`writeLoop_refines`), a store changes its unit, and a second write of the same data stores nothing
(`eeprom_rewrite`).
-/

namespace Ulisse

open ByteMem EEPROM Run

/-! ## The accesses as steps of the FlexRAM -/

namespace Access

def width : Access → ℕ
  | .load width _ _ => width
  | .store width _ _ => width

def offset : Access → ℕ
  | .load _ offset _ => offset
  | .store _ offset _ => offset

/-- The access is no store. -/
def IsLoad : Access → Prop
  | .load .. => True
  | .store .. => False

/-- The access is aligned, and in range. -/
def Fits (a : Access) : Prop :=
  (a.width = 1 ∨ a.width = 2 ∨ a.width = 4) ∧ Accessible eepromSize a.width a.offset

end Access

/-- The FlexRAM after an access: a load has to find its word. -/
def accessStep (ram : FlexRam) : Access → Option (FlexRam × Unit)
  | .load width offset word => if load ram width offset = some word then some (ram, ()) else none
  | .store width offset word => (store ram width offset word).map fun ram' => (ram', ())

/-- The accesses lead from `ram` to `ram'`. -/
def Replays (ram : FlexRam) (as : List Access) (ram' : FlexRam) : Prop :=
  ∃ os, run accessStep ram as = some (ram', os)

/-- A store finds another word in its unit than the one it leaves there. -/
def Changes (ram : FlexRam) : Access → Prop
  | .load .. => True
  | .store width offset word =>
    (width = 1 ∨ width = 2 ∨ width = 4) ∧ ∃ held, load ram width offset = some held ∧ held ≠ word

/-- Every store of `as`, made from `ram` on, changes its unit. -/
def StoresChange (ram : FlexRam) (as : List Access) : Prop :=
  Along accessStep (fun _ _ => Changes) ram as

section Unit

variable {ram ram' ram'' : FlexRam} {as as' : List Access} {width offset word : ℕ}
  {bs : List UInt8}

theorem Replays.append (h : Replays ram as ram') (h' : Replays ram' as' ram'') :
    Replays ram (as ++ as') ram'' := by
  obtain ⟨os, hrun⟩ := h
  obtain ⟨os', hrun'⟩ := h'
  exact ⟨os ++ os', run_append_of hrun hrun'⟩

theorem StoresChange.append (h : StoresChange ram as) (hrun : Replays ram as ram')
    (h' : StoresChange ram' as') : StoresChange ram (as ++ as') := by
  obtain ⟨os, hrun⟩ := hrun
  exact Along.append h hrun h'

/-- **The accesses of a unit**: a load, and a store if it found another word. -/
theorem writeUnit_cases (h : writeUnit ram width offset word = some (ram', as)) :
    ∃ held, load ram width offset = some held ∧
      ((held = word ∧ ram' = ram ∧ as = [.load width offset held]) ∨
        (held ≠ word ∧ store ram width offset word = some ram' ∧
          as = [.load width offset held, .store width offset word])) := by
  rw [writeUnit, Option.bind_eq_some_iff] at h
  obtain ⟨held, hload, h⟩ := h
  refine ⟨held, hload, ?_⟩
  split_ifs at h with hne
  · obtain ⟨ram₁, hstore, he⟩ := Option.map_eq_some_iff.mp h
    obtain ⟨rfl, rfl⟩ := Prod.mk.inj he
    exact Or.inr ⟨hne, hstore, rfl⟩
  · obtain ⟨rfl, rfl⟩ := Prod.mk.inj (Option.some_inj.mp h)
    exact Or.inl ⟨not_not.mp hne, rfl, rfl⟩

theorem writeUnit_replays (h : writeUnit ram width offset word = some (ram', as)) :
    Replays ram as ram' := by
  obtain ⟨held, hload, ⟨-, rfl, rfl⟩ | ⟨-, hstore, rfl⟩⟩ := writeUnit_cases h
  · exact ⟨[()], run_singleton (if_pos hload)⟩
  · refine ⟨[(), ()], ?_⟩
    rw [run_cons_of (if_pos hload), run_singleton (by rw [accessStep, hstore]; rfl)]
    rfl

theorem writeUnit_storesChange (hw : width = 1 ∨ width = 2 ∨ width = 4)
    (h : writeUnit ram width offset word = some (ram', as)) : StoresChange ram as := by
  obtain ⟨held, hload, ⟨-, rfl, rfl⟩ | ⟨hne, hstore, rfl⟩⟩ := writeUnit_cases h
  · exact Along.cons trivial fun _ _ _ => Along.nil
  · refine Along.cons trivial ?_
    intro ram₁ o hstep
    obtain ⟨rfl, -⟩ := result_unique (if_pos hload) hstep
    exact Along.cons ⟨hw, held, hload, hne⟩ fun _ _ _ => Along.nil

theorem writeUnit_fits (hw : width = 1 ∨ width = 2 ∨ width = 4)
    (hacc : Accessible eepromSize width offset)
    (h : writeUnit ram width offset word = some (ram', as)) : ∀ a ∈ as, a.Fits := by
  obtain ⟨held, -, ⟨-, -, rfl⟩ | ⟨-, -, rfl⟩⟩ := writeUnit_cases h
  · intro a ha
    obtain rfl := List.mem_singleton.mp ha
    exact ⟨hw, hacc⟩
  · intro a ha
    obtain rfl | ha := List.mem_cons.mp ha
    · exact ⟨hw, hacc⟩
    · obtain rfl := List.mem_singleton.mp ha
      exact ⟨hw, hacc⟩

/-- **A unit that holds its bytes** is loaded only. -/
theorem writeUnit_again (hacc : Accessible eepromSize bs.length offset)
    (hsame : overwrite ram offset bs = ram)
    (h : writeUnit ram bs.length offset (le bs) = some (ram', as)) :
    ram' = ram ∧ ∀ a ∈ as, a.IsLoad := by
  obtain ⟨held, hload, ⟨-, rfl, rfl⟩ | ⟨hne, -, -⟩⟩ := writeUnit_cases h
  · refine ⟨rfl, ?_⟩
    intro a ha
    obtain rfl := List.mem_singleton.mp ha
    trivial
  · have hheld := load_overwrite (m := ram) hacc
    rw [hsame, hload, Option.some.injEq] at hheld
    exact absurd hheld hne

end Unit

/-! ## The loop -/

/-- The next round of the loop. -/
def Next (s t : WriteState) : Prop := s.size ≠ 0 ∧ ∃ as, writeTurn s = some (t, as)

/-- The loop is done: `size` bytes of the buffer are used, each of them is in its cell and the
other cells are left alone; the accesses that led there were aligned and in range. -/
structure LoopCopied (s t : WriteState) (as : List Access) : Prop where
  done : t.size = 0
  used : s.src = s.src.take s.size.toNat ++ t.src
  stored : ∀ i : Fin eepromSize, InCells s.offset.toNat s.size.toNat i →
    s.src[i.val - s.offset.toNat]? = some (t.ram i)
  others : ∀ i : Fin eepromSize, ¬ InCells s.offset.toNat s.size.toNat i → t.ram i = s.ram i
  fits : ∀ a ∈ as, a.Fits
  replays : Replays s.ram as t.ram

/-- The counter of the loop goes down by the bytes that a turn copies. -/
structure CountsDown (s t : WriteState) : Prop where
  size : ∃ w, 0 < w ∧ s.size.toNat = t.size.toNat + w ∧ t.offset.toNat = s.offset.toNat + w ∧
    s.src.length = t.src.length + w

section Loop

variable {s t u : WriteState} {as : List Access} {bs : List UInt8} {n : ℕ}

/-- Every round starts in bounds. -/
theorem reached_inBounds (hs : InBounds s) (h : Relation.ReflTransGen Next s u) : InBounds u := by
  induction h with
  | refl => exact hs
  | tail _ hnext ih =>
    obtain ⟨hpos, as, hturn⟩ := hnext
    obtain ⟨t, as', bs, ht⟩ := ih.turn hpos
    obtain ⟨rfl, -⟩ := result_unique ht.turn hturn
    exact ht.inBounds ih

theorem EEPROM.Turn.countsDown (h : Turn s t as bs) : CountsDown s t := by
  have hfits := h.copied.fits
  have hsize := h.copied.size
  have hsrc := congrArg List.length h.copied.src
  rw [List.length_append] at hsrc
  exact ⟨bs.length, h.copied.pos, by omega, h.copied.offset, by omega⟩

/-- The accesses of the loop, and what they leave to do. -/
theorem writeLoop_accesses (hn : s.size.toNat ≤ n) (hs : InBounds s) :
    ∃ t as, writeLoop n s = some (t, as) ∧ t.size = 0 ∧ Replays s.ram as t.ram ∧
      (∀ a ∈ as, a.Fits) ∧ StoresChange s.ram as := by
  refine writeLoop_rule (J := fun s t as => t.size = 0 ∧ Replays s.ram as t.ram ∧
    (∀ a ∈ as, a.Fits) ∧ StoresChange s.ram as) ?_ ?_ hn hs
  · intro s _ h0
    exact ⟨h0, ⟨[], rfl⟩, fun a ha => absurd ha List.not_mem_nil, Along.nil⟩
  · rintro s t u as bs as' hs ht ⟨h0, hreplays, hfits, hchange⟩
    have hfirst := writeUnit_replays ht.unit
    refine ⟨h0, hfirst.append hreplays, ?_,
      (writeUnit_storesChange ht.width ht.unit).append hfirst hchange⟩
    intro a ha
    rcases List.mem_append.mp ha with ha | ha
    · exact writeUnit_fits ht.width (ht.accessible hs) ht.unit a ha
    · exact hfits a ha

/-- **The loop on cells that hold the buffer already** only loads: each turn finds the bytes of its
unit, and leaves the cells as they are for the turns behind it. -/
theorem writeLoop_again (hn : s.size.toNat ≤ n) (hs : InBounds s)
    (hsame : overwrite s.ram s.offset.toNat (s.src.take s.size.toNat) = s.ram) :
    ∃ t as, writeLoop n s = some (t, as) ∧ t.ram = s.ram ∧ ∀ a ∈ as, a.IsLoad := by
  have hrule : ∃ t as, writeLoop n s = some (t, as) ∧
      (overwrite s.ram s.offset.toNat (s.src.take s.size.toNat) = s.ram →
        t.ram = s.ram ∧ ∀ a ∈ as, a.IsLoad) := by
    refine writeLoop_rule (J := fun s t as =>
      overwrite s.ram s.offset.toNat (s.src.take s.size.toNat) = s.ram →
        t.ram = s.ram ∧ ∀ a ∈ as, a.IsLoad) ?_ ?_ hn hs
    · intro s _ _ _
      exact ⟨rfl, fun a ha => absurd ha List.not_mem_nil⟩
    · intro s t u as bs as' hs ht ih hsame
      rw [ht.copied.src, List.take_append, List.take_of_length_le ht.copied.fits] at hsame
      have hunit := overwrite_left hsame
      obtain ⟨hram, hloads⟩ := writeUnit_again (ht.accessible hs) hunit ht.unit
      rw [overwrite_append, hunit, ← ht.copied.size, ← ht.copied.offset] at hsame
      obtain ⟨hu, hloads'⟩ := ih (by rw [hram, hsame])
      refine ⟨hu.trans hram, ?_⟩
      intro a ha
      rcases List.mem_append.mp ha with ha | ha
      · exact hloads a ha
      · exact hloads' a ha
  obtain ⟨t, as, hloop, h⟩ := hrule
  exact ⟨t, as, hloop, h hsame⟩

end Loop

/-- **The clipping** leaves a size that fits behind the offset. -/
theorem clipSize_fits {offset : UInt32} (h : offset < 2048) (size : UInt16) :
    offset.toNat + (clipSize offset size).toNat ≤ eepromSize ∧
      (clipSize offset size).toNat ≤ size.toNat := by
  have hoffset : offset.toNat < 2048 := UInt32.lt_iff_toNat_lt.mp h
  rw [clipSize_toNat h, clipped_eq]
  show _ ≤ 2048 ∧ _
  omega

/-! ## What the loop and the function do -/

/-- **The loop refines a copy of bytes**: within `size` turns it puts the next `size` bytes of the
buffer in the cells from `offset` on, by accesses that are aligned and in range, its counter never
falls below zero on the way, and every size that the clipping lets through fits. -/
theorem writeLoop_refines {s : WriteState} {n : ℕ}
    (hcells : s.offset.toNat + s.size.toNat ≤ eepromSize) (hbuffer : s.size.toNat ≤ s.src.length)
    (hn : s.size.toNat ≤ n) :
    (∃ t as, writeLoop n s = some (t, as) ∧ LoopCopied s t as) ∧
    (∀ u, Relation.ReflTransGen Next s u → u.size ≠ 0 →
      ∃ v as, writeTurn u = some (v, as) ∧ CountsDown u v) ∧
    (∀ (offset : UInt32) (size : UInt16), offset < 2048 →
      offset.toNat + (clipSize offset size).toNat ≤ eepromSize) ∧
    ∀ (ram : FlexRam) (dest : UInt16) (buf : List UInt8) (size : UInt16),
      EEPROM.write ram dest buf size =
        if 2048 ≤ size.toUInt32 then some (ram, [])
        else (writeLoop (clipSize size.toUInt32 size).toNat
          ⟨ram, size.toUInt32, clipSize size.toUInt32 size, buf⟩).map fun x => (x.1.ram, x.2) := by
  have hs : InBounds s := ⟨hcells, hbuffer⟩
  refine ⟨?_, ?_, fun offset size h => (clipSize_fits h size).1, write_clips⟩
  · obtain ⟨t, as, hloop, h0, hreplays, hfits, -⟩ := writeLoop_accesses hn hs
    obtain ⟨t', as', hloop', hsrc, hram⟩ := writeLoop_copies hn hcells hbuffer
    obtain ⟨rfl, rfl⟩ := result_unique hloop hloop'
    refine ⟨t, as, hloop, h0, ?_, ?_, ?_, hfits, hreplays⟩
    · rw [hsrc, List.take_append_drop]
    · intro i hi
      rw [hram]
      exact overwrite_inCells hbuffer hi
    · intro i hi
      rw [hram]
      exact overwrite_notInCells hi
  · intro u hreach hpos
    obtain ⟨v, as, bs, ht⟩ := (reached_inBounds hs hreach).turn hpos
    exact ⟨v, as, ht.turn, ht.countsDown⟩

/-- Five bytes from the cell 3 on are a byte and an aligned word. -/
theorem writeLoop_refines_five :
    (∃ t as, writeLoop 5 ⟨fun _ => 0, 3, 5, [1, 2, 3, 4, 5]⟩ = some (t, as) ∧
      LoopCopied ⟨fun _ => 0, 3, 5, [1, 2, 3, 4, 5]⟩ t as) ∧
    (writeLoop 5 ⟨fun _ => 0, 3, 5, [1, 2, 3, 4, 5]⟩).map (·.2) =
      some [.load 1 3 0, .store 1 3 1, .load 4 4 0, .store 4 4 84148994] := by
  refine ⟨(writeLoop_refines (s := ⟨fun _ => 0, 3, 5, [1, 2, 3, 4, 5]⟩) ?_ ?_ ?_).1, ?_⟩
  · decide
  · decide
  · decide
  · decide +kernel

/-- **Equal data costs no store**: a store changes its unit, and the second of two writes of the
same data makes none and leaves the FlexRAM as the first one left it. -/
theorem eeprom_rewrite (ram : FlexRam) (dest : UInt16) {buf : List UInt8} {size : UInt16}
    (hbuf : size.toNat ≤ buf.length) :
    ∃ ram' as bs, EEPROM.write ram dest buf size = some (ram', as) ∧ Replays ram as ram' ∧
      StoresChange ram as ∧ EEPROM.write ram' dest buf size = some (ram', bs) ∧
      ∀ a ∈ bs, a.IsLoad := by
  simp only [write_clips]
  split_ifs with hend
  · exact ⟨ram, [], [], rfl, ⟨[], rfl⟩, Along.nil, rfl, fun a ha => absurd ha List.not_mem_nil⟩
  · obtain ⟨hcells, hle⟩ := clipSize_fits (UInt32.not_le.mp hend) size
    generalize clipSize size.toUInt32 size = left at hcells hle
    have hbuffer : left.toNat ≤ buf.length := hle.trans hbuf
    obtain ⟨t, as, hloop, -, hreplays, -, hchange⟩ :=
      writeLoop_accesses (s := ⟨ram, size.toUInt32, left, buf⟩) (Nat.le_refl left.toNat)
        ⟨hcells, hbuffer⟩
    obtain ⟨t', as', hloop', -, hram⟩ :=
      writeLoop_copies (s := ⟨ram, size.toUInt32, left, buf⟩) (Nat.le_refl left.toNat) hcells
        hbuffer
    obtain ⟨rfl, rfl⟩ := result_unique hloop hloop'
    obtain ⟨u, bs, hagain, hu, hloads⟩ :=
      writeLoop_again (s := ⟨t.ram, size.toUInt32, left, buf⟩) (Nat.le_refl left.toNat)
        ⟨hcells, hbuffer⟩ (by rw [hram]; exact overwrite_twice _ _ _)
    refine ⟨t.ram, as, bs, ?_, hreplays, hchange, ?_, hloads⟩
    · rw [hloop]
      rfl
    · rw [hagain, Option.map_some, hu]

/-- Three bytes for the cells from 3 on are stored once. -/
theorem eeprom_rewrite_three :
    ∃ ram' as bs, EEPROM.write (fun _ => 0) 3 [1, 2, 3] 3 = some (ram', as) ∧
      Replays (fun _ => 0) as ram' ∧ StoresChange (fun _ => 0) as ∧
      EEPROM.write ram' 3 [1, 2, 3] 3 = some (ram', bs) ∧ ∀ a ∈ bs, a.IsLoad :=
  eeprom_rewrite (fun _ => 0) 3 (by decide)

end Ulisse
