import Ulisse.Lib.Stdio

/-!
# Common.Ventry — variables that are read and printed by name

`VEntry_read` and `VEntry_write` on a memory of bytes, for every type; what the C library makes of a
`%f` is a parameter.  A printed integer is read back into any variable of its type
(`ventry_roundTrip`).  But a number that is typed is cut to the type, so it is stored as typed only
if it is in range (`ventry_read_iff`).
-/

namespace Ulisse

open ByteMem Numeral Stdio

/-- `VariableType`. -/
inductive VariableType where
  | packet
  | uint8
  | int8
  | uint16
  | int16
  | uint32
  | int32
  | int32Hex
  | float
  | string
  deriving DecidableEq, Repr

def varRead : Int32 := 0x1

def varWrite : Int32 := 0x2

/-- A variable, by the cell that it starts at. -/
structure VEntry where
  type : VariableType
  ptr : ℕ
  accessFlags : Int32

/-- What the C library reads for `%f` and prints for `%.5f`, with the float by its bits. -/
structure FloatText where
  scan : List UInt8 → Scan
  print : UInt32 → List UInt8

/-- What `VEntry_read` returns, with the memory behind it and the message it prints. -/
structure ReadResult (n : ℕ) where
  ret : ℤ
  mem : Fin n → UInt8
  out : String

/-- What `VEntry_write` returns, with the text that it puts in the buffer and the message it
prints. -/
structure WriteResult where
  ret : ℤ
  text : Option (List UInt8)
  out : String
  deriving DecidableEq, Repr

namespace VEntry

/-! ## The conversions -/

/-- `%hhd`. -/
def hhd : Spec := ⟨1, .d, 0⟩

/-- `%hhu`. -/
def hhu : Spec := ⟨1, .u, 0⟩

/-- `%hd`. -/
def hd : Spec := ⟨2, .d, 0⟩

/-- `%hu`. -/
def hu : Spec := ⟨2, .u, 0⟩

/-- `%d`. -/
def d : Spec := ⟨4, .d, 0⟩

/-- `%u`. -/
def u : Spec := ⟨4, .u, 0⟩

/-- `%x`. -/
def x : Spec := ⟨4, .x, 0⟩

/-- `%08x`. -/
def x08 : Spec := ⟨4, .x, 8⟩

/-! ## The two functions -/

/-- The text of the message that an entry without the flag is refused with. -/
def accessError (v : VEntry) : String :=
  "access error Owned: " ++ toString v.accessFlags ++ " Required: " ++ toString varRead ++ "\n"

section Functions

variable {n : ℕ}

/-- The bytes are assigned to the variable at `ptr`. -/
def assign (mem : Fin n → UInt8) (ptr : ℕ) (bs : List UInt8) : Option (ReadResult n) :=
  if ptr + bs.length ≤ n then some ⟨1, overwrite mem ptr bs, ""⟩ else none

/-- `sscanf(s, spec, ptr)`. -/
def scanInt (mem : Fin n → UInt8) (ptr : ℕ) (spec : Spec) (s : List UInt8) :
    Option (ReadResult n) :=
  match sscanf spec.conv s with
  | .stored num => assign mem ptr (spec.bytesOf num)
  | r => some ⟨r.ret, mem, ""⟩

/-- `sscanf(s, "%f", ptr)`. -/
def scanFloat (libc : FloatText) (mem : Fin n → UInt8) (ptr : ℕ) (s : List UInt8) :
    Option (ReadResult n) :=
  match libc.scan s with
  | .stored num => assign mem ptr (u.bytesOf num)
  | r => some ⟨r.ret, mem, ""⟩

/-- `sscanf(s, "%s", ptr)`: the first word, and a NUL. -/
def scanString (mem : Fin n → UInt8) (ptr : ℕ) (s : List UInt8) : Option (ReadResult n) :=
  let word := (s.dropWhile isSpace).takeWhile fun c => !isSpace c
  if word = [] then some ⟨Scan.eof.ret, mem, ""⟩ else assign mem ptr (word ++ [0])

/-- `VEntry_read`. -/
def read (libc : FloatText) (mem : Fin n → UInt8) (v : VEntry) (s : List UInt8) :
    Option (ReadResult n) :=
  if v.accessFlags &&& varWrite = 0 then some ⟨0, mem, v.accessError⟩
  else
    match v.type with
    | .int8 => scanInt mem v.ptr hhd s
    | .uint8 => scanInt mem v.ptr hhu s
    | .int16 => scanInt mem v.ptr hd s
    | .uint16 => scanInt mem v.ptr hu s
    | .int32 => scanInt mem v.ptr d s
    | .uint32 => scanInt mem v.ptr u s
    | .int32Hex => scanInt mem v.ptr x s
    | .float => scanFloat libc mem v.ptr s
    | .string => scanString mem v.ptr s
    | .packet => some ⟨0, mem, ""⟩

/-- The integer of `bytes` bytes at `ptr`, as it is passed to `sprintf`. -/
def deref (mem : Fin n → UInt8) (ptr bytes : ℕ) (signed : Bool) : Option (BitVec 32) :=
  if h : ptr + bytes ≤ n then
    let word := BitVec.ofNat (8 * bytes) (le (slice mem ptr bytes h))
    some (if signed then word.signExtend 32 else word.setWidth 32)
  else none

/-- `sprintf` returns the length of the text. -/
def printed (text : List UInt8) : WriteResult := ⟨text.length, some text, ""⟩

/-- The string at `ptr`, if it ends. -/
def stringAt (mem : Fin n → UInt8) (ptr : ℕ) : Option (List UInt8) :=
  let cells := (List.ofFn mem).drop ptr
  if 0 ∈ cells then some (cells.takeWhile (· ≠ 0)) else none

/-- `VEntry_write`. -/
def write (libc : FloatText) (mem : Fin n → UInt8) (v : VEntry) : Option WriteResult :=
  if v.accessFlags &&& varRead = 0 then some ⟨0, none, v.accessError⟩
  else
    match v.type with
    | .int8 => (deref mem v.ptr 1 true).map fun arg => printed (sprintf hhd arg)
    | .uint8 => (deref mem v.ptr 1 false).map fun arg => printed (sprintf hhu arg)
    | .int16 => (deref mem v.ptr 2 true).map fun arg => printed (sprintf hd arg)
    | .uint16 => (deref mem v.ptr 2 false).map fun arg => printed (sprintf hu arg)
    | .int32 => (deref mem v.ptr 4 true).map fun arg => printed (sprintf d arg)
    | .uint32 => (deref mem v.ptr 4 true).map fun arg => printed (sprintf u arg)
    | .int32Hex => (deref mem v.ptr 4 false).map fun arg => printed (sprintf x08 arg)
    | .float => (deref mem v.ptr 4 false).map fun arg => printed (libc.print ⟨arg⟩)
    | .string => (stringAt mem v.ptr).map printed
    | .packet => some ⟨0, none, ""⟩

end Functions

end VEntry

/-! ## The integer types -/

namespace VariableType

/-- The size of an integer type. -/
def intSize? : VariableType → Option ℕ
  | uint8 => some 1
  | int8 => some 1
  | uint16 => some 2
  | int16 => some 2
  | uint32 => some 4
  | int32 => some 4
  | int32Hex => some 4
  | _ => none

/-- The least and the greatest value of an integer type that is typed in decimal. -/
def decimalRange? : VariableType → Option (ℤ × ℤ)
  | uint8 => some (0, 255)
  | int8 => some (-128, 127)
  | uint16 => some (0, 65535)
  | int16 => some (-32768, 32767)
  | uint32 => some (0, 4294967295)
  | int32 => some (-2147483648, 2147483647)
  | _ => none

/-- The value of a variable, from its bytes. -/
def valueOf : VariableType → List UInt8 → ℤ
  | int8, bs => (BitVec.ofNat 8 (le bs)).toInt
  | int16, bs => (BitVec.ofNat 16 (le bs)).toInt
  | int32, bs => (BitVec.ofNat 32 (le bs)).toInt
  | _, bs => le bs

/-- The conversion that an integer type is read with. -/
def spec? : VariableType → Option Spec
  | uint8 => some VEntry.hhu
  | int8 => some VEntry.hhd
  | uint16 => some VEntry.hu
  | int16 => some VEntry.hd
  | uint32 => some VEntry.u
  | int32 => some VEntry.d
  | int32Hex => some VEntry.x
  | _ => none

section Tables

variable {t : VariableType} {w : ℕ} {lo hi : ℤ}

theorem spec_of_intSize (h : t.intSize? = some w) :
    ∃ spec, t.spec? = some spec ∧ spec.bytes = w := by
  cases t <;> cases h <;> exact ⟨_, rfl, rfl⟩

theorem spec_bytes {spec : Spec} (h : t.spec? = some spec) : 0 < spec.bytes ∧ spec.bytes ≤ 4 := by
  cases t <;> cases h <;> decide

/-- **The decimal types** are read by the conversion that has their range. -/
theorem spec_of_decimal (h : t.decimalRange? = some (lo, hi)) :
    ∃ spec, t.spec? = some spec ∧ spec.conv ≠ .x ∧ (∀ z, spec.InRange z ↔ lo ≤ z ∧ z ≤ hi) ∧
      ∀ bs, t.valueOf bs = spec.holds bs := by
  cases t <;> cases h
  case uint8 =>
    refine ⟨_, rfl, by decide, fun z => ?_, fun bs => rfl⟩
    show 0 ≤ z ∧ z < 256 ↔ _
    omega
  case int8 =>
    refine ⟨_, rfl, by decide, fun z => ?_, fun bs => rfl⟩
    show -128 ≤ z ∧ z < 128 ↔ _
    omega
  case uint16 =>
    refine ⟨_, rfl, by decide, fun z => ?_, fun bs => rfl⟩
    show 0 ≤ z ∧ z < 65536 ↔ _
    omega
  case int16 =>
    refine ⟨_, rfl, by decide, fun z => ?_, fun bs => rfl⟩
    show -32768 ≤ z ∧ z < 32768 ↔ _
    omega
  case uint32 =>
    refine ⟨_, rfl, by decide, fun z => ?_, fun bs => rfl⟩
    show 0 ≤ z ∧ z < 4294967296 ↔ _
    omega
  case int32 =>
    refine ⟨_, rfl, by decide, fun z => ?_, fun bs => rfl⟩
    show -2147483648 ≤ z ∧ z < 2147483648 ↔ _
    omega

end Tables

end VariableType

namespace VEntry

section Integers

variable {n : ℕ} {libc : FloatText} {mem : Fin n → UInt8} {v : VEntry} {spec : Spec}
  {s : List UInt8} {num : ℤ}

theorem read_int (hwrite : v.accessFlags &&& varWrite ≠ 0) (htype : v.type.spec? = some spec) :
    v.read libc mem s = scanInt mem v.ptr spec s := by
  rw [read, if_neg hwrite]
  cases ht : v.type <;> rw [ht] at htype <;> cases htype <;> rfl

theorem setWidth_signExtend {k m : ℕ} (h : k ≤ m) (b : BitVec k) :
    (b.signExtend m).setWidth k = b := by
  apply BitVec.eq_of_getLsbD_eq
  intro i hi
  rw [BitVec.getLsbD_setWidth, BitVec.getLsbD_signExtend, decide_eq_true hi,
    decide_eq_true (show i < m by omega), Bool.true_and, Bool.true_and, if_pos hi]

/-- The low bits of an argument are those of the integer that is passed. -/
theorem deref_low (mem : Fin n → UInt8) {bytes : ℕ} (hb : bytes ≤ 4) (signed : Bool)
    (h : v.ptr + bytes ≤ n) :
    ∃ arg, deref mem v.ptr bytes signed = some arg ∧
      (arg.setWidth (8 * bytes)).toNat = le (slice mem v.ptr bytes h) := by
  have hlt : le (slice mem v.ptr bytes h) < 2 ^ (8 * bytes) := by
    have hlt := le_lt (slice mem v.ptr bytes h)
    rwa [length_slice, pow_256] at hlt
  refine ⟨_, dif_pos h, ?_⟩
  have hword : ∀ b : BitVec (8 * bytes),
      (if signed then b.signExtend 32 else b.setWidth 32).setWidth (8 * bytes) = b := by
    intro b
    split_ifs
    · exact setWidth_signExtend (by omega) b
    · rw [BitVec.setWidth_setWidth_of_le b (by omega), BitVec.setWidth_eq]
  rw [hword, BitVec.toNat_ofNat, Nat.mod_eq_of_lt hlt]

/-- **The two tables match**: an integer is printed with the size and the conversion that it is read
with. -/
theorem write_int (libc : FloatText) (mem : Fin n → UInt8)
    (hread : v.accessFlags &&& varRead ≠ 0) (htype : v.type.spec? = some spec)
    (h : v.ptr + spec.bytes ≤ n) :
    ∃ width arg, v.write libc mem = some (printed (sprintf ⟨spec.bytes, spec.conv, width⟩ arg)) ∧
      (arg.setWidth (8 * spec.bytes)).toNat = le (slice mem v.ptr spec.bytes h) := by
  have hlow := fun signed => deref_low mem (VariableType.spec_bytes htype).2 signed h
  rw [write, if_neg hread]
  cases ht : v.type <;> rw [ht] at htype <;> cases htype
  case int8 | int16 | int32 | uint32 =>
    obtain ⟨arg, hderef, harg⟩ := hlow true
    exact ⟨0, arg, Option.map_eq_some_iff.mpr ⟨arg, hderef, rfl⟩, harg⟩
  case uint8 | uint16 =>
    obtain ⟨arg, hderef, harg⟩ := hlow false
    exact ⟨0, arg, Option.map_eq_some_iff.mpr ⟨arg, hderef, rfl⟩, harg⟩
  case int32Hex =>
    obtain ⟨arg, hderef, harg⟩ := hlow false
    exact ⟨8, arg, Option.map_eq_some_iff.mpr ⟨arg, hderef, rfl⟩, harg⟩

theorem length_bytesOf (spec : Spec) (num : ℤ) : (spec.bytesOf num).length = spec.bytes :=
  length_bytesLE _ _

theorem scanInt_stored (hscan : sscanf spec.conv s = .stored num) (h : v.ptr + spec.bytes ≤ n) :
    scanInt mem v.ptr spec s = some ⟨1, overwrite mem v.ptr (spec.bytesOf num), ""⟩ := by
  rw [scanInt, hscan]
  exact if_pos (by rw [length_bytesOf]; exact h)

end Integers

end VEntry

/-! ## What is printed and read, and what is typed -/

section Results

variable {n k : ℕ} (libc : FloatText) (mem : Fin n → UInt8)

/-- **Round trip**: what is printed for an integer variable is read back into any writable one of
the same type, and no other cell is touched. -/
theorem ventry_roundTrip (mem' : Fin k → UInt8) (v v' : VEntry) {w : ℕ}
    (hsize : v.type.intSize? = some w) (htype : v'.type = v.type)
    (hread : v.accessFlags &&& varRead ≠ 0) (hwrite : v'.accessFlags &&& varWrite ≠ 0)
    (hfits : v.ptr + w ≤ n) (hfits' : v'.ptr + w ≤ k) :
    ∃ text mem'', v.write libc mem = some ⟨text.length, some text, ""⟩ ∧
      v'.read libc mem' text = some ⟨1, mem'', ""⟩ ∧
      slice mem'' v'.ptr w hfits' = slice mem v.ptr w hfits ∧
      ∀ i : Fin k, i.val < v'.ptr ∨ v'.ptr + w ≤ i.val → mem'' i = mem' i := by
  obtain ⟨spec, hspec, rfl⟩ := VariableType.spec_of_intSize hsize
  obtain ⟨hpos, hle⟩ := VariableType.spec_bytes hspec
  obtain ⟨width, arg, hprint, harg⟩ := VEntry.write_int libc mem hread hspec hfits
  obtain ⟨num, hscan, hnum⟩ := sscanf_sprintf ⟨spec.bytes, spec.conv, width⟩
    (hle.trans (Nat.le_add_right 4 4)) arg
  have hbytes : spec.bytesOf num = slice mem v.ptr spec.bytes hfits := by
    rw [Spec.bytesOf, hnum, harg]
    have hslice := bytesLE_le (slice mem v.ptr spec.bytes hfits)
    rwa [length_slice] at hslice
  refine ⟨_, overwrite mem' v'.ptr (spec.bytesOf num), hprint, ?_, ?_, ?_⟩
  · rw [VEntry.read_int hwrite (htype ▸ hspec)]
    exact VEntry.scanInt_stored hscan hfits'
  · rw [slice_overwrite (VEntry.length_bytesOf spec num), hbytes]
  · intro i hi
    refine overwrite_outside ?_
    rwa [VEntry.length_bytesOf]

/-- The least 8 bit integer is printed and read back between two other cells. -/
theorem ventry_roundTrip_int8 :
    (∃ text mem'', VEntry.write ⟨fun _ => .eof, fun _ => []⟩ (fun _ : Fin 1 => 128) ⟨.int8, 0, 1⟩ =
        some ⟨text.length, some text, ""⟩ ∧
      VEntry.read ⟨fun _ => .eof, fun _ => []⟩ (fun _ : Fin 3 => 0) ⟨.int8, 1, 2⟩ text =
        some ⟨1, mem'', ""⟩ ∧
      slice mem'' 1 1 (Nat.le_add_right 2 1) = slice (fun _ : Fin 1 => 128) 0 1 (Nat.le_refl 1) ∧
      ∀ i : Fin 3, i.val < 1 ∨ 1 + 1 ≤ i.val → mem'' i = 0) ∧
    VEntry.write ⟨fun _ => .eof, fun _ => []⟩ (fun _ : Fin 1 => 128) ⟨.int8, 0, 1⟩ =
      some ⟨4, some [45, 49, 50, 56], ""⟩ := by
  constructor
  · exact ventry_roundTrip _ _ _ ⟨.int8, 0, 1⟩ ⟨.int8, 1, 2⟩ rfl rfl (by decide) (by decide)
      (Nat.le_refl 1) (Nat.le_add_right 2 1)
  · decide +kernel

/-- A number is stored only as it was typed, and otherwise the entry is left as it was. -/
structure ReadAsTyped (v : VEntry) (s : List UInt8) (lo hi : ℤ) (w : ℕ) (hfits : v.ptr + w ≤ n)
    (r : ReadResult n) : Prop where
  stored : r.ret = 1 → ∃ z, Starts s z ∧ lo ≤ z ∧ z ≤ hi ∧
    v.type.valueOf (slice r.mem v.ptr w hfits) = z
  refused : ¬ (v.accessFlags &&& varWrite ≠ 0 ∧ ∃ z, Starts s z ∧ lo ≤ z ∧ z ≤ hi) →
    r.ret ≠ 1 ∧ r.mem = mem

theorem readAsTyped_of_refused {v : VEntry} {s : List UInt8} {lo hi : ℤ} {w : ℕ}
    {hfits : v.ptr + w ≤ n} {r : ReadResult n} (hret : r.ret ≠ 1) (hmem : r.mem = mem) :
    ReadAsTyped mem v s lo hi w hfits r :=
  ⟨fun h => absurd h hret, fun _ => ⟨hret, hmem⟩⟩

/-- A text without a numeral is refused. -/
theorem scanInt_refused {v : VEntry} {s : List UInt8} {spec : Spec} (hconv : spec.conv ≠ .x)
    (hnone : ∀ z, ¬ Starts s z) :
    ∃ r, VEntry.scanInt mem v.ptr spec s = some r ∧ r.ret ≠ 1 ∧ r.mem = mem := by
  cases hscan : sscanf spec.conv s with
  | eof =>
    exact ⟨⟨-1, mem, ""⟩, by rw [VEntry.scanInt, hscan]; rfl, show (-1 : ℤ) ≠ 1 by decide, rfl⟩
  | mismatch =>
    exact ⟨⟨0, mem, ""⟩, by rw [VEntry.scanInt, hscan]; rfl, show (0 : ℤ) ≠ 1 by decide, rfl⟩
  | stored num =>
    obtain ⟨ws, sg, ds, rest, hparts⟩ := parts_of_stored hconv hscan
    rw [base_of_ne hconv] at hparts
    exact absurd ⟨ws, sg, ds, rest, hparts, rfl⟩ (hnone _)

/-- A number that is assigned for a numeral is the one that was typed exactly if that is in range:
then, it is converted to itself, and its bytes hold it. -/
theorem readAsTyped_iff_inRange {v : VEntry} {s : List UInt8} {lo hi z num : ℤ} {spec : Spec}
    (hwrite : v.accessFlags &&& varWrite ≠ 0) (hpos : 0 < spec.bytes)
    (hfits : v.ptr + spec.bytes ≤ n) (hvalue : ∀ bs, v.type.valueOf bs = spec.holds bs)
    (hin : ∀ z, spec.InRange z ↔ lo ≤ z ∧ z ≤ hi) (hz : Starts s z)
    (hnum : lo ≤ z ∧ z ≤ hi → num = z) :
    ReadAsTyped mem v s lo hi spec.bytes hfits
      ⟨1, overwrite mem v.ptr (spec.bytesOf num), ""⟩ ↔ lo ≤ z ∧ z ≤ hi := by
  constructor
  · intro h
    by_contra hout
    refine (h.refused ?_).1 rfl
    rintro ⟨-, z', hz', hrange'⟩
    exact hout (hz.unique hz' ▸ hrange')
  · intro hrange
    rw [hnum hrange]
    refine ⟨fun _ => ⟨z, hz, hrange.1, hrange.2, ?_⟩, fun h => ?_⟩
    · rw [slice_overwrite (VEntry.length_bytesOf spec z), hvalue,
        holds_bytesOf hpos ((hin z).mpr hrange)]
    · exact absurd ⟨hwrite, z, hz, hrange⟩ h

/-- **VEntry_read stores what is typed** exactly if the entry cannot be written, or the numeral that
the text starts with, if there is one, is in the range of the type; such a numeral is accepted. -/
theorem ventry_read_iff {v : VEntry} (s : List UInt8) {lo hi : ℤ} {w : ℕ}
    (hrange : v.type.decimalRange? = some (lo, hi)) (hsize : v.type.intSize? = some w)
    (hfits : v.ptr + w ≤ n) :
    ∃ r, v.read libc mem s = some r ∧
      (ReadAsTyped mem v s lo hi w hfits r ↔
        v.accessFlags &&& varWrite = 0 ∨ ∀ z, Starts s z → lo ≤ z ∧ z ≤ hi) ∧
      ∀ z, v.accessFlags &&& varWrite ≠ 0 → Starts s z → lo ≤ z → z ≤ hi → r.ret = 1 := by
  obtain ⟨spec, hspec, hconv, hin, hvalue⟩ := VariableType.spec_of_decimal hrange
  obtain ⟨spec', hspec', rfl⟩ := VariableType.spec_of_intSize hsize
  obtain rfl : spec = spec' := Option.some_inj.mp (hspec.symm.trans hspec')
  obtain ⟨hpos, hle⟩ := VariableType.spec_bytes hspec
  by_cases hwrite : v.accessFlags &&& varWrite = 0
  · refine ⟨⟨0, mem, v.accessError⟩, if_pos hwrite, iff_of_true ?_ (Or.inl hwrite), ?_⟩
    · exact readAsTyped_of_refused mem (show (0 : ℤ) ≠ 1 by decide) rfl
    · intro z hne
      exact absurd hwrite hne
  rw [VEntry.read_int hwrite hspec]
  by_cases hnum : ∃ z, Starts s z
  · obtain ⟨z, hz⟩ := hnum
    obtain ⟨ws, sg, ds, rest, hparts, hzeq⟩ := id hz
    have hscan := sscanf_parts (Or.inl hconv) ((base_of_ne hconv).symm ▸ hparts)
    rw [base_of_ne hconv] at hscan
    refine ⟨_, VEntry.scanInt_stored hscan hfits, ?_, fun _ _ _ _ _ => rfl⟩
    have hconvert : lo ≤ z ∧ z ≤ hi → spec.conv.convert (decide (sg = [45])) (value 10 ds) = z := by
      intro hrange
      have hz' := (hin z).mpr hrange
      rw [hzeq] at hz' ⊢
      exact convert_of_inRange (hle.trans (Nat.le_add_right 4 4)) hz'
    refine (readAsTyped_iff_inRange mem hwrite hpos hfits hvalue hin hz hconvert).trans ⟨?_, ?_⟩
    · intro hrange
      exact Or.inr fun z' hz' => hz'.unique hz ▸ hrange
    · rintro (h | h)
      · exact absurd h hwrite
      · exact h z hz
  · rw [not_exists] at hnum
    obtain ⟨r, hread, hret, hmem⟩ := scanInt_refused mem (v := v) hconv hnum
    refine ⟨r, hread, iff_of_true (readAsTyped_of_refused mem hret hmem) (Or.inr ?_), ?_⟩
    · intro z hz
      exact absurd hz (hnum z)
    · intro z _ hz
      exact absurd hz (hnum z)

/-- A numeral in range is read as it was typed. -/
theorem ventry_read_int8 :
    ∃ r, VEntry.read ⟨fun _ => .eof, fun _ => []⟩ (fun _ : Fin 1 => 0) ⟨.int8, 0, 2⟩ [45, 49] =
        some r ∧
      (ReadAsTyped (fun _ => 0) ⟨.int8, 0, 2⟩ [45, 49] (-128) 127 1 (Nat.le_refl 1) r ↔
        (2 : Int32) &&& varWrite = 0 ∨ ∀ z, Starts [45, 49] z → -128 ≤ z ∧ z ≤ 127) ∧
      ∀ z, (2 : Int32) &&& varWrite ≠ 0 → Starts [45, 49] z → -128 ≤ z → z ≤ 127 → r.ret = 1 :=
  ventry_read_iff ⟨fun _ => .eof, fun _ => []⟩ (fun _ => 0) [45, 49] rfl rfl (Nat.le_refl 1)

/-- 256 is typed for an 8 bit variable, accepted, and 0 is stored. -/
theorem ventry_read_counterexample :
    (VEntry.read ⟨fun _ => .eof, fun _ => []⟩ (fun _ : Fin 1 => 7) ⟨.uint8, 0, 2⟩ [50, 53, 54]).map
      (fun r => (r.ret, r.mem 0)) = some (1, 0) ∧
    ¬ ∃ r, VEntry.read ⟨fun _ => .eof, fun _ => []⟩ (fun _ : Fin 1 => 7) ⟨.uint8, 0, 2⟩
        [50, 53, 54] = some r ∧
      ReadAsTyped (fun _ => 7) ⟨.uint8, 0, 2⟩ [50, 53, 54] 0 255 1 (Nat.le_refl 1) r := by
  have hret : (VEntry.read ⟨fun _ => .eof, fun _ => []⟩ (fun _ : Fin 1 => 7) ⟨.uint8, 0, 2⟩
      [50, 53, 54]).map (fun r => (r.ret, r.mem 0)) = some (1, 0) := by decide +kernel
  have hstarts : Starts [50, 53, 54] 256 := starts_text 256
  refine ⟨hret, ?_⟩
  rintro ⟨r, hread, h⟩
  rw [hread, Option.map_some, Option.some.injEq, Prod.mk.injEq] at hret
  obtain ⟨z, hz, -, hle, -⟩ := h.stored hret.1
  rw [hz.unique hstarts] at hle
  exact absurd hle (by decide)

end Results

end Ulisse
