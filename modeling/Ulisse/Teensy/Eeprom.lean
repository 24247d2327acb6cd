import Ulisse.Lib.ByteMem

/-!
# Teensy.Eeprom — the parameters kept in the FlexRAM

`EEPROM_read` and the loop of `EEPROM_write` on the cells of the FlexRAM, which read back what was
stored; bringing the flash up and waiting for it is left out.  The loop is a copy in aligned units
(`writeLoop_copies`), and the reader reads what it should.  But `EEPROM_write` starts at the cell
`size` instead of `dest`.
-/

namespace Ulisse

open ByteMem

/-- `EEPROM_SIZE`. -/
abbrev eepromSize : ℕ := 2048

abbrev FlexRam := Fin eepromSize → UInt8

/-- An access to the FlexRAM by `EEPROM_write`, with the word that is loaded or stored. -/
inductive Access where
  | load (width offset word : ℕ)
  | store (width offset word : ℕ)
  deriving DecidableEq, Repr

/-- The variables of the loop of `EEPROM_write`; `src` is what is left of the buffer. -/
structure WriteState where
  ram : FlexRam
  offset : UInt32
  size : UInt16
  src : List UInt8

/-- What the clipping before the loop leaves of a size. -/
def clipSize (offset : UInt32) (size : UInt16) : UInt16 :=
  let size : UInt16 := if 2048 ≤ size then 2048 else size
  if 2048 ≤ offset + size.toUInt32 then (2048 - offset).toUInt16 else size

namespace EEPROM

/-! ## Writing -/

/-- `val8`, and the buffer behind it. -/
def val8 : List UInt8 → Option (UInt8 × List UInt8)
  | b0 :: src => some (b0, src)
  | _ => none

/-- `val16`. -/
def val16 : List UInt8 → Option (UInt16 × List UInt8)
  | b0 :: b1 :: src => some (b0.toUInt16 ||| (b1.toUInt16 <<< 8), src)
  | _ => none

/-- `val32`. -/
def val32 : List UInt8 → Option (UInt32 × List UInt8)
  | b0 :: b1 :: b2 :: b3 :: src =>
    some (b0.toUInt32 ||| (b1.toUInt32 <<< 8) ||| (b2.toUInt32 <<< 16) ||| (b3.toUInt32 <<< 24),
      src)
  | _ => none

/-- A unit is stored if it does not hold the word. -/
def writeUnit (ram : FlexRam) (width offset word : ℕ) : Option (FlexRam × List Access) :=
  (load ram width offset).bind fun held =>
    if held ≠ word then
      (store ram width offset word).map fun ram' =>
        (ram', [.load width offset held, .store width offset word])
    else some (ram, [.load width offset held])

/-- One turn of the loop. -/
def writeTurn (s : WriteState) : Option (WriteState × List Access) :=
  let lsb := s.offset &&& 3
  if lsb = 0 ∧ 4 ≤ s.size then
    (val32 s.src).bind fun x =>
      (writeUnit s.ram 4 s.offset.toNat x.1.toNat).map fun y =>
        (⟨y.1, s.offset + 4, s.size - 4, x.2⟩, y.2)
  else if (lsb = 0 ∨ lsb = 2) ∧ 2 ≤ s.size then
    (val16 s.src).bind fun x =>
      (writeUnit s.ram 2 s.offset.toNat x.1.toNat).map fun y =>
        (⟨y.1, s.offset + 2, s.size - 2, x.2⟩, y.2)
  else
    (val8 s.src).bind fun x =>
      (writeUnit s.ram 1 s.offset.toNat x.1.toNat).map fun y =>
        (⟨y.1, s.offset + 1, s.size - 1, x.2⟩, y.2)

/-- The loop, for at most `n` turns. -/
def writeLoop : ℕ → WriteState → Option (WriteState × List Access)
  | 0, s => if s.size = 0 then some (s, []) else none
  | n + 1, s =>
    if s.size = 0 then some (s, [])
    else (writeTurn s).bind fun x => (writeLoop n x.1).map fun y => (y.1, x.2 ++ y.2)

/-- `EEPROM_write`: the FlexRAM behind it, and the accesses. -/
def write (ram : FlexRam) (_dest : UInt16) (buf : List UInt8) (size : UInt16) :
    Option (FlexRam × List Access) :=
  let offset : UInt32 := size.toUInt32
  if 2048 ≤ offset then some (ram, [])
  else
    let size : UInt16 := if 2048 ≤ size then 2048 else size
    let size : UInt16 := if 2048 ≤ offset + size.toUInt32 then (2048 - offset).toUInt16 else size
    (writeLoop size.toNat ⟨ram, offset, size, buf⟩).map fun x => (x.1.ram, x.2)

/-! ## Reading -/

/-- The loop of `EEPROM_read`, for at most `n` turns: `dest` is what is left of the buffer, and the
bytes written to it are returned in front of the rest. -/
def readLoop : ℕ → FlexRam → UInt32 → UInt32 → List UInt8 → Option (List UInt8)
  | 0, _, offset, stop, dest => if offset < stop then none else some dest
  | n + 1, ram, offset, stop, dest =>
    if offset < stop then
      if h : offset.toNat < eepromSize then
        match dest with
        | [] => none
        | _ :: rest => (readLoop n ram (offset + 1) stop rest).map (ram ⟨offset.toNat, h⟩ :: ·)
      else none
    else some dest

/-- `EEPROM_read`: the buffer `dest` behind it. -/
def read (ram : FlexRam) (dest : List UInt8) (src size : UInt16) : Option (List UInt8) :=
  let offset : UInt32 := src.toUInt32
  let stop : UInt32 := offset + size.toUInt32
  let stop : UInt32 := if 2048 < stop then 2048 else stop
  readLoop eepromSize ram offset stop dest

/-! ## One unit -/

section Unit

theorem toUInt16_shift (b : UInt8) : (b.toUInt16 <<< 8).toNat = b.toNat <<< 8 := by
  have hb := b.toNat_lt
  rw [UInt16.toNat_shiftLeft, UInt8.toNat_toUInt16, Nat.mod_eq_of_lt]
  · rfl
  · show b.toNat <<< 8 < 2 ^ 16
    rw [Nat.shiftLeft_eq]
    omega

theorem toUInt32_shift {b : UInt8} {k : UInt32} (hk : k.toNat ≤ 24) :
    (b.toUInt32 <<< k).toNat = b.toNat <<< k.toNat := by
  rw [UInt32.toNat_shiftLeft, UInt8.toNat_toUInt32, Nat.mod_eq_of_lt (b := 32) (by omega),
    Nat.mod_eq_of_lt]
  calc b.toNat <<< k.toNat = b.toNat * 2 ^ k.toNat := Nat.shiftLeft_eq _ _
    _ < 2 ^ 8 * 2 ^ k.toNat := Nat.mul_lt_mul_of_pos_right b.toNat_lt (Nat.two_pow_pos _)
    _ ≤ 2 ^ 8 * 2 ^ 24 := Nat.mul_le_mul_left _ (Nat.pow_le_pow_right (by decide) hk)

theorem val16_toNat (b0 b1 : UInt8) :
    (b0.toUInt16 ||| (b1.toUInt16 <<< 8)).toNat = le [b0, b1] := by
  rw [UInt16.toNat_or, UInt8.toNat_toUInt16, toUInt16_shift, or_shift b0.toNat_lt, le_cons,
    le_cons, le_nil]
  omega

theorem val32_toNat (b0 b1 b2 b3 : UInt8) :
    (b0.toUInt32 ||| (b1.toUInt32 <<< 8) ||| (b2.toUInt32 <<< 16) |||
      (b3.toUInt32 <<< 24)).toNat = le [b0, b1, b2, b3] := by
  have h0 := b0.toNat_lt
  have h1 := b1.toNat_lt
  have h2 := b2.toNat_lt
  rw [UInt32.toNat_or, UInt32.toNat_or, UInt32.toNat_or, UInt8.toNat_toUInt32,
    toUInt32_shift (by decide), toUInt32_shift (by decide), toUInt32_shift (by decide)]
  show ((b0.toNat ||| b1.toNat <<< 8) ||| b2.toNat <<< 16) ||| b3.toNat <<< 24 = _
  rw [or_shift h0, or_shift (show b0.toNat + b1.toNat * 2 ^ 8 < 2 ^ 16 by omega),
    or_shift (show b0.toNat + b1.toNat * 2 ^ 8 + b2.toNat * 2 ^ 16 < 2 ^ 24 by omega),
    le_cons, le_cons, le_cons, le_cons, le_nil]
  omega

variable {offset : ℕ} {bs src : List UInt8} {s t : WriteState}

theorem val8_spec (h : 1 ≤ src.length) :
    ∃ v bs rest, val8 src = some (v, rest) ∧ src = bs ++ rest ∧ bs.length = 1 ∧
      v.toNat = le bs := by
  rcases src with _ | ⟨b0, rest⟩
  · cases h
  · exact ⟨b0, [b0], rest, rfl, rfl, rfl, by simp⟩

theorem val16_spec (h : 2 ≤ src.length) :
    ∃ v bs rest, val16 src = some (v, rest) ∧ src = bs ++ rest ∧ bs.length = 2 ∧
      v.toNat = le bs := by
  rcases src with _ | ⟨b0, _ | ⟨b1, rest⟩⟩
  · simp at h
  · simp at h
  · exact ⟨_, [b0, b1], rest, rfl, rfl, rfl, val16_toNat b0 b1⟩

theorem val32_spec (h : 4 ≤ src.length) :
    ∃ v bs rest, val32 src = some (v, rest) ∧ src = bs ++ rest ∧ bs.length = 4 ∧
      v.toNat = le bs := by
  rcases src with _ | ⟨b0, _ | ⟨b1, _ | ⟨b2, _ | ⟨b3, rest⟩⟩⟩⟩
  · simp at h
  · simp at h
  · simp at h
  · simp at h
  · exact ⟨_, [b0, b1, b2, b3], rest, rfl, rfl, rfl, val32_toNat b0 b1 b2 b3⟩

/-- **A unit** is copied, whether it is stored or skipped. -/
theorem writeUnit_copies (ram : FlexRam) (h : Accessible eepromSize bs.length offset) :
    ∃ as, writeUnit ram bs.length offset (le bs) = some (overwrite ram offset bs, as) := by
  have hload : load ram bs.length offset = some (le (slice ram offset bs.length h.2)) := dif_pos h
  rw [writeUnit, hload, Option.bind_some]
  split_ifs with hne
  · rw [store_le h]
    exact ⟨_, rfl⟩
  · rw [not_not] at hne
    rw [overwrite_of_load (hload.trans (congrArg some hne))]
    exact ⟨_, rfl⟩

/-- What a turn that copies a unit of `bs` makes of the variables of the loop. -/
structure UnitCopied (s t : WriteState) (bs : List UInt8) : Prop where
  pos : 0 < bs.length
  fits : bs.length ≤ s.size.toNat
  aligned : s.offset.toNat % bs.length = 0
  offset : t.offset.toNat = s.offset.toNat + bs.length
  size : t.size.toNat = s.size.toNat - bs.length
  src : s.src = bs ++ t.src
  ram : t.ram = overwrite s.ram s.offset.toNat bs

theorem lsb_toNat (offset : UInt32) : (offset &&& 3).toNat = offset.toNat % 4 := by
  rw [UInt32.toNat_and]
  exact Nat.and_two_pow_sub_one_eq_mod offset.toNat 2

/-- The end of a turn that copies `bs`; `d` and `e` are its length `w`. -/
theorem unitCopied_of {rest : List UInt8} {d : UInt32} {e : UInt16} {w : ℕ}
    (hsrc : s.src = bs ++ rest) (hlen : bs.length = w) (hd : d.toNat = w) (he : e.toNat = w)
    (hpos : 0 < w) (hfit : w ≤ s.size.toNat)
    (hin : s.offset.toNat + s.size.toNat ≤ eepromSize) (halign : s.offset.toNat % w = 0) :
    ∃ t as, (writeUnit s.ram w s.offset.toNat (le bs)).map
        (fun y => ((⟨y.1, s.offset + d, s.size - e, rest⟩ : WriteState), y.2)) = some (t, as) ∧
      UnitCopied s t bs ∧
      writeUnit s.ram bs.length s.offset.toNat (le bs) = some (t.ram, as) := by
  subst hlen
  obtain ⟨as, hunit⟩ := writeUnit_copies s.ram ⟨halign, by omega⟩
  refine ⟨_, as, by rw [hunit]; rfl, ⟨hpos, hfit, halign, ?_, ?_, hsrc, rfl⟩, hunit⟩
  · show (s.offset + d).toNat = _
    have hlt : s.offset.toNat + bs.length ≤ eepromSize := by omega
    rw [UInt32.toNat_add, hd, Nat.mod_eq_of_lt (Nat.lt_of_le_of_lt hlt (by decide))]
  · show (s.size - e).toNat = _
    rw [UInt16.toNat_sub_of_le _ _ (UInt16.le_iff_toNat_le.mpr (he.trans_le hfit)), he]

/-- **One turn** copies an aligned unit, if there is something left to copy and it is in range. -/
theorem writeTurn_copies (hpos : s.size ≠ 0)
    (hin : s.offset.toNat + s.size.toNat ≤ eepromSize) (hsrc : s.size.toNat ≤ s.src.length) :
    ∃ t as bs, writeTurn s = some (t, as) ∧ UnitCopied s t bs ∧
      writeUnit s.ram bs.length s.offset.toNat (le bs) = some (t.ram, as) ∧
      (bs.length = 1 ∨ bs.length = 2 ∨ bs.length = 4) := by
  have hlsb := lsb_toNat s.offset
  simp only [writeTurn]
  split_ifs with h4 h2
  · obtain ⟨h0, hsize⟩ := h4
    have hfit : 4 ≤ s.size.toNat := UInt16.le_iff_toNat_le.mp hsize
    rw [h0] at hlsb
    obtain ⟨v, bs, rest, hval, hs, hlen, hv⟩ := val32_spec (hfit.trans hsrc)
    obtain ⟨t, as, he, ht, hunit⟩ := unitCopied_of (d := 4) (e := 4) hs hlen rfl rfl (by decide)
      hfit hin hlsb.symm
    exact ⟨t, as, bs, by rw [hval, Option.bind_some, hv, he], ht, hunit, Or.inr (Or.inr hlen)⟩
  · obtain ⟨h0, hsize⟩ := h2
    have hfit : 2 ≤ s.size.toNat := UInt16.le_iff_toNat_le.mp hsize
    have halign : s.offset.toNat % 2 = 0 := by
      rcases h0 with h0 | h0 <;> rw [h0] at hlsb
      · have h : 0 = s.offset.toNat % 4 := hlsb
        omega
      · have h : 2 = s.offset.toNat % 4 := hlsb
        omega
    obtain ⟨v, bs, rest, hval, hs, hlen, hv⟩ := val16_spec (hfit.trans hsrc)
    obtain ⟨t, as, he, ht, hunit⟩ := unitCopied_of (d := 2) (e := 2) hs hlen rfl rfl (by decide)
      hfit hin halign
    exact ⟨t, as, bs, by rw [hval, Option.bind_some, hv, he], ht, hunit, Or.inr (Or.inl hlen)⟩
  · have hfit : 1 ≤ s.size.toNat := by
      rw [Nat.one_le_iff_ne_zero]
      intro h
      exact hpos (UInt16.toNat_inj.mp h)
    obtain ⟨v, bs, rest, hval, hs, hlen, hv⟩ := val8_spec (hfit.trans hsrc)
    obtain ⟨t, as, he, ht, hunit⟩ := unitCopied_of (d := 1) (e := 1) hs hlen rfl rfl (by decide)
      hfit hin (Nat.mod_one _)
    exact ⟨t, as, bs, by rw [hval, Option.bind_some, hv, he], ht, hunit, Or.inl hlen⟩

end Unit

/-! ## The turns of the loop -/

/-- What is left to copy is in range, and in the buffer. -/
structure InBounds (s : WriteState) : Prop where
  cells : s.offset.toNat + s.size.toNat ≤ eepromSize
  buffer : s.size.toNat ≤ s.src.length

/-- A turn of the loop that copies `bs`, and its accesses. -/
structure Turn (s t : WriteState) (as : List Access) (bs : List UInt8) : Prop where
  goesOn : s.size ≠ 0
  turn : writeTurn s = some (t, as)
  copied : UnitCopied s t bs
  unit : writeUnit s.ram bs.length s.offset.toNat (le bs) = some (t.ram, as)
  width : bs.length = 1 ∨ bs.length = 2 ∨ bs.length = 4

section Turns

variable {s t : WriteState} {as : List Access} {bs : List UInt8} {n : ℕ}

theorem InBounds.turn (h : InBounds s) (hpos : s.size ≠ 0) : ∃ t as bs, Turn s t as bs := by
  obtain ⟨t, as, bs, hturn, hcopied, hunit, hwidth⟩ := writeTurn_copies hpos h.cells h.buffer
  exact ⟨t, as, bs, hpos, hturn, hcopied, hunit, hwidth⟩

theorem Turn.accessible (h : Turn s t as bs) (hs : InBounds s) :
    Accessible eepromSize bs.length s.offset.toNat := by
  have hfits := h.copied.fits
  have hcells := hs.cells
  exact ⟨h.copied.aligned, by omega⟩

/-- **A turn stays in bounds.** -/
theorem Turn.inBounds (h : Turn s t as bs) (hs : InBounds s) : InBounds t := by
  have hfits := h.copied.fits
  have hoffset := h.copied.offset
  have hsize := h.copied.size
  have hcells := hs.cells
  have hbuffer := hs.buffer
  rw [h.copied.src, List.length_append] at hbuffer
  exact ⟨by omega, by omega⟩

/-- **Rule for the loop**: it ends, and what is true of no turn, and of a turn and the turns behind
it if it is true of these, is true of the loop. -/
theorem writeLoop_rule {J : WriteState → WriteState → List Access → Prop}
    (hdone : ∀ s, InBounds s → s.size = 0 → J s s [])
    (hturn : ∀ s t u as bs as', InBounds s → Turn s t as bs → J t u as' → J s u (as ++ as'))
    (hn : s.size.toNat ≤ n) (hs : InBounds s) :
    ∃ t as, writeLoop n s = some (t, as) ∧ J s t as := by
  induction n generalizing s with
  | zero =>
    have h0 : s.size = 0 := UInt16.toNat_inj.mp (Nat.le_zero.mp hn)
    exact ⟨s, [], if_pos h0, hdone s hs h0⟩
  | succ n ih =>
    by_cases h0 : s.size = 0
    · exact ⟨s, [], if_pos h0, hdone s hs h0⟩
    · obtain ⟨t, as, bs, ht⟩ := hs.turn h0
      have hpos := ht.copied.pos
      have hsize := ht.copied.size
      obtain ⟨u, as', hloop, hJ⟩ := ih (s := t) (by omega) (ht.inBounds hs)
      refine ⟨u, as ++ as', ?_, hturn s t u as bs as' hs ht hJ⟩
      rw [writeLoop, if_neg h0, ht.turn, Option.bind_some, hloop]
      rfl

end Turns

/-! ## The loops -/

section Loops

variable {ram : FlexRam} {s : WriteState} {n : ℕ}

/-- **The loop of `EEPROM_write`** ends, and copies `size` bytes to the cells from `offset` on. -/
theorem writeLoop_copies (hn : s.size.toNat ≤ n)
    (hin : s.offset.toNat + s.size.toNat ≤ eepromSize) (hsrc : s.size.toNat ≤ s.src.length) :
    ∃ t as, writeLoop n s = some (t, as) ∧ t.src = s.src.drop s.size.toNat ∧
      t.ram = overwrite s.ram s.offset.toNat (s.src.take s.size.toNat) := by
  refine writeLoop_rule (J := fun s t _ => t.src = s.src.drop s.size.toNat ∧
    t.ram = overwrite s.ram s.offset.toNat (s.src.take s.size.toNat)) ?_ ?_ hn ⟨hin, hsrc⟩
  · intro s _ h0
    rw [h0]
    exact ⟨List.drop_zero.symm, (overwrite_nil _ _).symm⟩
  · rintro s t u as bs as' - ht ⟨husrc, huram⟩
    have hfits := ht.copied.fits
    constructor
    · rw [husrc, ht.copied.size, ht.copied.src, List.drop_append, List.drop_of_length_le hfits,
        List.nil_append]
    · rw [huram, ht.copied.size, ht.copied.offset, ht.copied.ram, ht.copied.src, List.take_append,
        List.take_of_length_le hfits, overwrite_append]

/-- **The loop of `EEPROM_read`** ends, and gives what is in the cells from `offset` to `stop`. -/
theorem readLoop_reads {bs dest : List UInt8} {offset stop : UInt32}
    (hcells : ∀ j (hj : j < bs.length), ∃ h : offset.toNat + j < eepromSize,
      ram ⟨offset.toNat + j, h⟩ = bs[j])
    (hlen : bs.length = stop.toNat - offset.toNat) (hn : bs.length ≤ n)
    (hdest : bs.length ≤ dest.length) :
    readLoop n ram offset stop dest = some (bs ++ dest.drop bs.length) := by
  induction bs generalizing n offset dest with
  | nil =>
    have hstop : ¬ offset < stop := by
      rw [UInt32.lt_iff_toNat_lt]
      rw [List.length_nil] at hlen
      omega
    cases n <;> rw [readLoop, if_neg hstop] <;> rfl
  | cons b bs ih =>
    rw [List.length_cons] at hlen hn hdest
    obtain ⟨m, rfl⟩ : ∃ m, n = m + 1 := ⟨n - 1, by omega⟩
    obtain ⟨hin, hb⟩ : ∃ h : offset.toNat < eepromSize, ram ⟨offset.toNat, h⟩ = b :=
      hcells 0 (Nat.succ_pos _)
    cases dest with
    | nil => cases hdest
    | cons d rest =>
      have hstop : offset < stop := by
        rw [UInt32.lt_iff_toNat_lt]
        omega
      have hnext : (offset + 1).toNat = offset.toNat + 1 := by
        rw [UInt32.toNat_add]
        exact Nat.mod_eq_of_lt (Nat.lt_of_le_of_lt hin (by decide))
      have hrest : readLoop m ram (offset + 1) stop rest = some (bs ++ rest.drop bs.length) := by
        refine ih (fun j hj => ?_) (by omega) (by omega) (Nat.succ_le_succ_iff.mp hdest)
        obtain ⟨h, hbj⟩ := hcells (j + 1) (Nat.succ_lt_succ hj)
        simp only [hnext, Nat.add_assoc, Nat.add_comm 1 j]
        exact ⟨h, hbj⟩
      rw [readLoop, if_pos hstop, dif_pos hin]
      simp only [hrest, Option.map_some, hb]
      rfl

end Loops

/-! ## The two functions -/

/-- How many of `size` bytes fit in the cells from `first` on. -/
def clipped (first size : ℕ) : ℕ := min size (eepromSize - first)

theorem clipped_eq (first size : ℕ) : clipped first size = min size (2048 - first) := rfl

/-- **The clipping** leaves what fits behind the offset. -/
theorem clipSize_toNat {offset : UInt32} (h : offset < 2048) (size : UInt16) :
    (clipSize offset size).toNat = clipped offset.toNat size.toNat := by
  have hoffset : offset.toNat < 2048 := UInt32.lt_iff_toNat_lt.mp h
  have hmax : (if 2048 ≤ size then 2048 else size).toNat = min size.toNat 2048 := by
    split_ifs with hsize <;> rw [UInt16.le_iff_toNat_le] at hsize
    · exact (Nat.min_eq_right hsize).symm
    · exact (Nat.min_eq_left (Nat.le_of_not_le hsize)).symm
  simp only [clipSize]
  generalize (if 2048 ≤ size then 2048 else size) = left at hmax
  have hsum : (offset + left.toUInt32).toNat = offset.toNat + left.toNat := by
    rw [UInt32.toNat_add, UInt16.toNat_toUInt32]
    omega
  rw [clipped_eq]
  split_ifs with hend <;> rw [UInt32.le_iff_toNat_le, hsum] at hend
  · have hend : 2048 ≤ offset.toNat + left.toNat := hend
    rw [UInt32.toNat_toUInt16, UInt32.toNat_sub_of_le _ _ (UInt32.le_of_lt h)]
    show (2048 - offset.toNat) % 2 ^ 16 = _
    omega
  · have hend : ¬ 2048 ≤ offset.toNat + left.toNat := hend
    omega

theorem write_clips (ram : FlexRam) (dest : UInt16) (buf : List UInt8) (size : UInt16) :
    write ram dest buf size =
      if 2048 ≤ size.toUInt32 then some (ram, [])
      else (writeLoop (clipSize size.toUInt32 size).toNat
        ⟨ram, size.toUInt32, clipSize size.toUInt32 size, buf⟩).map fun x => (x.1.ram, x.2) :=
  rfl

/-- **`EEPROM_write`** copies what fits of the buffer to the cells from `size` on. -/
theorem write_eq (ram : FlexRam) (dest : UInt16) {buf : List UInt8} {size : UInt16}
    (hbuf : size.toNat ≤ buf.length) :
    ∃ as, write ram dest buf size =
      some (overwrite ram size.toNat (buf.take (clipped size.toNat size.toNat)), as) := by
  have hoff : size.toUInt32.toNat = size.toNat := UInt16.toNat_toUInt32 size
  have hclip := clipped_eq size.toNat size.toNat
  rw [write_clips]
  split_ifs with hend
  · rw [UInt32.le_iff_toNat_le, hoff] at hend
    have hend : 2048 ≤ size.toNat := hend
    have hnone : clipped size.toNat size.toNat = 0 := by
      rw [hclip]
      omega
    rw [hnone, List.take_zero, overwrite_nil]
    exact ⟨[], rfl⟩
  · have hleft := clipSize_toNat (UInt32.not_le.mp hend) size
    rw [hoff] at hleft
    generalize clipSize size.toUInt32 size = left at hleft ⊢
    rw [UInt32.le_iff_toNat_le, hoff] at hend
    have hend : ¬ 2048 ≤ size.toNat := hend
    obtain ⟨t, as, hloop, -, hram⟩ := writeLoop_copies (s := ⟨ram, size.toUInt32, left, buf⟩)
      (Nat.le_refl left.toNat) (show size.toUInt32.toNat + left.toNat ≤ 2048 by omega)
      (show left.toNat ≤ buf.length by omega)
    rw [hloop, Option.map_some, hram, hoff, hleft]
    exact ⟨as, rfl⟩

/-- **`EEPROM_read`** gives what is in the cells from `src` on. -/
theorem read_eq {ram : FlexRam} {src size : UInt16} {bs dest : List UInt8}
    (hlen : bs.length = clipped src.toNat size.toNat)
    (hcells : ∀ j (hj : j < bs.length), ∃ h : src.toNat + j < eepromSize,
      ram ⟨src.toNat + j, h⟩ = bs[j]) (hdest : bs.length ≤ dest.length) :
    read ram dest src size = some (bs ++ dest.drop bs.length) := by
  have hoff : src.toUInt32.toNat = src.toNat := UInt16.toNat_toUInt32 src
  have hsum : (src.toUInt32 + size.toUInt32).toNat = src.toNat + size.toNat := by
    have hsrc := src.toNat_lt
    have hsize := size.toNat_lt
    rw [UInt32.toNat_add, hoff, UInt16.toNat_toUInt32]
    omega
  have hclip := clipped_eq src.toNat size.toNat
  refine readLoop_reads ?_ ?_ (show bs.length ≤ 2048 by omega) hdest
  · rw [hoff]
    exact hcells
  · rw [hoff, hlen, hclip]
    split_ifs with hend
    · rw [UInt32.lt_iff_toNat_lt, hsum] at hend
      have hlt : 2048 < src.toNat + size.toNat := hend
      show _ = 2048 - src.toNat
      omega
    · rw [UInt32.lt_iff_toNat_lt, hsum] at hend
      have hlt : ¬ 2048 < src.toNat + size.toNat := hend
      rw [hsum]
      omega

end EEPROM

end Ulisse
