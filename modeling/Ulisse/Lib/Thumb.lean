import Mathlib.Logic.Function.Basic
import Ulisse.Lib.Machine

/-!
# Lib.Thumb — a part of the Thumb instruction set

Six instructions of ARMv7-M in their halfword encodings, and what they do: `decode` reads the first
instruction of a list of halfwords, `next` is one step of the processor on code at some address.
Loads and stores of bytes go to the device.  Immediates are those of one plain byte; an encoding
outside of this part, one whose result the architecture leaves open, and a fetch outside of the code
are stuck.
-/

namespace Thumb

open Device

/-- An instruction, with its operands. -/
inductive Instr where
  | mvn (d : Fin 16) (imm : UInt32)
  | tst (n : Fin 16) (imm : UInt32)
  | strb (t n : Fin 16) (offset : UInt32)
  | ldrb (t n : Fin 16) (offset : UInt32)
  | b (zero : Bool) (offset : UInt32)
  | bx (m : Fin 16)
  deriving DecidableEq, Repr

/-- A field of a halfword: `width` bits from bit `low` on. -/
def field (h : UInt16) (low width : ℕ) : ℕ := (h.toNat >>> low) % (1 <<< width)

/-- The register that a field names. -/
def register (h : UInt16) (low width : ℕ) : Fin 16 := Fin.ofNat 16 (field h low width)

/-- The stack pointer and the program counter are no general operands. -/
def General (r : Fin 16) : Prop := r ≠ 13 ∧ r ≠ 15

instance (r : Fin 16) : Decidable (General r) := inferInstanceAs (Decidable (_ ∧ _))

/-- The offset of a branch: an 8-bit number of halfwords with sign. -/
def branchOffset (h : UInt16) : UInt32 :=
  let imm8 := field h 0 8
  if imm8 < 128 then UInt32.ofNat (2 * imm8) else 0 - UInt32.ofNat (2 * (256 - imm8))

/-- A 32-bit instruction. -/
def decode32 (h h' : UInt16) : Option Instr :=
  if h = 0xF06F ∧ field h' 12 4 = 0 ∧ General (register h' 8 4) then
    some (.mvn (register h' 8 4) (UInt32.ofNat (field h' 0 8)))
  else if field h 4 12 = 0xF01 ∧ field h' 8 8 = 0x0F ∧ General (register h 0 4) then
    some (.tst (register h 0 4) (UInt32.ofNat (field h' 0 8)))
  else none

/-- The first instruction, and its size in bytes. -/
def decode : List UInt16 → Option (Instr × UInt32)
  | [] => none
  | h :: hs =>
    if field h 11 5 = 0b01110 then
      some (.strb (register h 0 3) (register h 3 3) (UInt32.ofNat (field h 6 5)), 2)
    else if field h 11 5 = 0b01111 then
      some (.ldrb (register h 0 3) (register h 3 3) (UInt32.ofNat (field h 6 5)), 2)
    else if field h 7 9 = 0b010001110 ∧ field h 0 3 = 0 ∧ register h 3 4 ≠ 15 then
      some (.bx (register h 3 4), 2)
    else if field h 8 8 = 0xD0 then some (.b true (branchOffset h), 2)
    else if field h 8 8 = 0xD1 then some (.b false (branchOffset h), 2)
    else match hs with
      | [] => none
      | h' :: _ => (decode32 h h').map fun i => (i, 4)

/-- The registers, the program counter and two flags. -/
structure Cpu where
  regs : Fin 16 → UInt32
  pc : UInt32
  z : Bool
  n : Bool

/-- The instruction at the program counter, of code from `base` on. -/
def fetch (code : List UInt16) (base pc : UInt32) : Option (Instr × UInt32) :=
  if (pc - base).toNat % 2 = 0 then decode (code.drop ((pc - base).toNat / 2)) else none

/-- What an instruction of `size` bytes does; `store` is what the device is told. -/
def execute {E : Type} (store : UInt32 → UInt8 → E) (c : Cpu) (size : UInt32) :
    Instr → Effect Cpu UInt32 UInt8 E UInt32
  | .mvn d imm => .silent { c with regs := Function.update c.regs d (~~~imm), pc := c.pc + size }
  | .tst n imm =>
    let result := c.regs n &&& imm
    .silent { c with z := result = 0, n := 0x80000000 ≤ result, pc := c.pc + size }
  | .strb t n offset =>
    .store (store (c.regs n + offset) (c.regs t).toUInt8) { c with pc := c.pc + size }
  | .ldrb t n offset => .load (c.regs n + offset) fun v =>
    { c with regs := Function.update c.regs t v.toUInt32, pc := c.pc + size }
  | .b zero offset =>
    .silent { c with pc := if c.z = zero then c.pc + 4 + offset else c.pc + size }
  -- an address without bit 0 would leave the Thumb state
  | .bx m => if c.regs m &&& 1 = 1 then .exit (c.regs m) else .stuck

/-- One step of the processor; it leaves the code with the address that it goes to. -/
def next {E : Type} (code : List UInt16) (base : UInt32) (store : UInt32 → UInt8 → E) (c : Cpu) :
    Effect Cpu UInt32 UInt8 E UInt32 :=
  match fetch code base c.pc with
  | none => .stuck
  | some (i, size) => execute store c size i

section Fetch

variable {code : List UInt16} {base : UInt32}

/-- The code can be anywhere. -/
theorem fetch_add (o : UInt32) :
    fetch code base (base + o) =
      if o.toNat % 2 = 0 then decode (code.drop (o.toNat / 2)) else none := by
  have ho : base + o - base = o := by
    rw [UInt32.add_comm, UInt32.add_sub_cancel]
  rw [fetch, ho]

theorem next_of {E : Type} {store : UInt32 → UInt8 → E} {c : Cpu} {i : Instr} {size : UInt32}
    (h : fetch code base c.pc = some (i, size)) :
    next code base store c = execute store c size i := by
  rw [next, h]

end Fetch

end Thumb
