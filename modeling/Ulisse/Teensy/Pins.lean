import Mathlib.Data.Nat.Notation

/-!
# Teensy.Pins — the pins of the chip and their registers

The table `pins`: each digital pin has a bit in the input, the output and the direction register of
one of the five ports.
-/

namespace Ulisse

/-- The ports of the chip. -/
inductive GpioPort where
  | a
  | b
  | c
  | d
  | e
  deriving DecidableEq, Repr

/-- The registers of a port: what is read, what is put out, and in which direction. -/
inductive GpioRegister where
  | pdir (port : GpioPort)
  | pdor (port : GpioPort)
  | pddr (port : GpioPort)
  deriving DecidableEq, Repr

/-- The port of a register. -/
def GpioRegister.port : GpioRegister → GpioPort
  | pdir port => port
  | pdor port => port
  | pddr port => port

/-- An entry of `pins`, without the timer registers. -/
structure Pin where
  inRegister : GpioRegister
  outRegister : GpioRegister
  dirRegister : GpioRegister
  bit : UInt8
  deriving DecidableEq, Repr

/-- The entry of a pin: its three registers are those of one port. -/
def Pin.on (port : GpioPort) (bit : UInt8) : Pin := ⟨.pdir port, .pdor port, .pddr port, bit⟩

/-- `PINS_NUM`. -/
abbrev pinsNum : ℕ := 29

/-- The pins, in the order of their numbers. -/
def pins : Vector Pin pinsNum := #v[
  .on .b 16, .on .b 17, .on .d 0, .on .a 12, .on .a 13, .on .d 7, .on .d 4, .on .d 2, .on .d 3,
  .on .c 3, .on .c 4, .on .c 6, .on .c 7, .on .c 5, .on .d 1, .on .c 0, .on .b 0, .on .b 1,
  .on .b 3, .on .b 2, .on .d 5, .on .d 6, .on .c 1, .on .c 2, .on .a 5, .on .b 19, .on .e 1,
  .on .c 9, .on .c 8]

/-- **Every entry** has the three registers of one port, and a bit that they have. -/
theorem pins_on (i : Fin pinsNum) :
    pins.get i = .on (pins.get i).dirRegister.port (pins.get i).bit ∧
      (pins.get i).bit.toNat < 32 := by
  revert i
  decide

/-- **No two pins** have a port and a bit in common. -/
theorem pins_inj {i j : Fin pinsNum} : pins.get i = pins.get j → i = j := by
  revert i j
  decide

end Ulisse
