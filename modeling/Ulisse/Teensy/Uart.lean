import Mathlib.Data.Nat.Notation
import Mathlib.Tactic.SplitIfs

/-!
# Teensy.Uart — the baud rate of the serial port

What `UART_init` writes to the registers of UART0; its pins and clock gate, and the USB device that
it brings up, are left out.  The divisor is split over the registers without a loss, but it is
computed for a clock of `SYSCLK` kHz, not MHz.
-/

namespace Ulisse

/-- The registers of UART0 that are set up. -/
structure Uart0 where
  bdh : UInt8
  bdl : UInt8
  c1 : UInt8
  c2 : UInt8
  c4 : UInt8
  deriving DecidableEq, Repr

/-- `SYSCLK`. -/
def sysclk : UInt32 := 30

namespace UART

/-! ## The function -/

/-- `UART_C2_RE`. -/
def c2RE : UInt8 := 0x04

/-- `UART_C2_TE`. -/
def c2TE : UInt8 := 0x08

/-- `UART_C4_BRFA`. -/
def c4BRFA (n : UInt16) : UInt16 := n &&& 31

/-- What is left of a register in `temp`, with another number in its low five bits. -/
def putField (reg : UInt8) (field : UInt16) : UInt8 :=
  let temp : UInt16 := reg.toUInt16 &&& ~~~0x1F
  (temp ||| field).toUInt8

/-- What is assigned to `ubd`. -/
def ubdValue (baud : UInt32) : UInt32 := sysclk * 1000 / (baud * 16)

/-- What is assigned to `brfa`. -/
def brfaValue (baud : UInt32) (ubd : UInt16) : UInt32 :=
  sysclk * 32000 / (baud * 16) - ubd.toUInt32 * 32

/-- `UART_init`, unless it divides by zero. -/
def init (regs : Uart0) (baud : UInt32) : Option Uart0 :=
  if baud * 16 = 0 then none
  else
    let c2 := regs.c2 &&& ~~~(c2RE ||| c2TE)
    let ubd := (ubdValue baud).toUInt16
    let brfa := (brfaValue baud ubd).toUInt16
    some {
      bdh := putField regs.bdh ((ubd &&& 0x1F00) >>> 8)
      bdl := (ubd &&& 0xFF).toUInt8
      c1 := 0
      c2 := c2 ||| (c2RE ||| c2TE)
      c4 := putField regs.c4 (c4BRFA brfa) }

end UART

/-! ## The registers as numbers -/

/-- The divisor `SBR`, in the low bits of BDH and in BDL. -/
def Uart0.sbr (regs : Uart0) : ℕ := (regs.bdh.toNat % 32) * 256 + regs.bdl.toNat

/-- The fine adjust `BRFA`, in the low bits of C4. -/
def Uart0.brfa (regs : Uart0) : ℕ := regs.c4.toNat % 32

/-- The bits of BDH and C4 outside of the fields are the same. -/
def SameOutside (regs regs' : Uart0) : Prop :=
  regs'.bdh &&& ~~~0x1F = regs.bdh &&& ~~~0x1F ∧ regs'.c4 &&& ~~~0x1F = regs.c4 &&& ~~~0x1F

/-- The temporaries hold what is assigned to them. -/
def NothingCut (baud : UInt32) : Prop :=
  (UART.ubdValue baud).toNat < UInt16.size ∧
    (UART.brfaValue baud (UART.ubdValue baud).toUInt16).toNat < UInt16.size

/-- The divisor is the one for `baud` from a clock of `clock` Hz, to the last bit. -/
structure DivisorFor (clock : ℕ) (baud : UInt32) (regs : Uart0) : Prop where
  pos : 1 ≤ regs.sbr
  le : regs.sbr ≤ 8191
  fine : regs.brfa ≤ 31
  exact : 32 * regs.sbr + regs.brfa = 2 * clock / baud.toNat

namespace UART

section Fields

variable {reg : UInt8} {field ubd : UInt16} {i : ℕ}

theorem mask_bit : (0x1F : UInt16).toBitVec.getLsbD i = decide (i < 5) :=
  Nat.testBit_two_pow_sub_one 5 i

theorem field_bit (hfield : field.toNat < 32) (hi : 5 ≤ i) :
    field.toBitVec.getLsbD i = false :=
  Nat.testBit_lt_two_pow (Nat.lt_of_lt_of_le hfield (Nat.pow_le_pow_right Nat.two_pos hi))

/-- **The bits of a register** with another field. -/
theorem putField_bit (hfield : field.toNat < 32) (hi : i < 8) :
    (putField reg field).toBitVec.getLsbD i =
      if i < 5 then field.toBitVec.getLsbD i else reg.toBitVec.getLsbD i := by
  simp only [putField]
  rw [UInt16.toBitVec_toUInt8, BitVec.getLsbD_setWidth, UInt16.toBitVec_or, BitVec.getLsbD_or,
    UInt16.toBitVec_and, BitVec.getLsbD_and, UInt16.toBitVec_not, BitVec.getLsbD_not, mask_bit,
    UInt8.toBitVec_toUInt16, BitVec.getLsbD_setWidth, decide_eq_true hi,
    decide_eq_true (show i < 16 by omega), Bool.true_and, Bool.true_and, Bool.true_and]
  split_ifs with h5
  · rw [decide_eq_true h5, Bool.not_true, Bool.and_false, Bool.false_or]
  · rw [decide_eq_false h5, Bool.not_false, Bool.and_true, field_bit hfield (by omega),
      Bool.or_false]

/-- The field is what was put there. -/
theorem putField_toNat (hfield : field.toNat < 32) :
    (putField reg field).toNat % 32 = field.toNat := by
  apply Nat.eq_of_testBit_eq
  intro i
  rw [show 32 = 2 ^ 5 from rfl, Nat.testBit_mod_two_pow]
  by_cases h5 : i < 5
  · rw [decide_eq_true h5, Bool.true_and]
    exact (putField_bit hfield (by omega)).trans (if_pos h5)
  · rw [decide_eq_false h5, Bool.false_and]
    exact (field_bit hfield (by omega)).symm

/-- The other bits are left alone. -/
theorem putField_outside (hfield : field.toNat < 32) :
    putField reg field &&& ~~~0x1F = reg &&& ~~~0x1F := by
  apply UInt8.toBitVec_inj.mp
  apply BitVec.eq_of_getLsbD_eq
  intro i hi
  rw [UInt8.toBitVec_and, UInt8.toBitVec_and, BitVec.getLsbD_and, BitVec.getLsbD_and,
    putField_bit hfield hi]
  split_ifs with h5
  · have hmask : (~~~(0x1F : UInt8)).toBitVec.getLsbD i = false := by
      rw [UInt8.toBitVec_not, BitVec.getLsbD_not, decide_eq_true hi, Bool.true_and]
      have hbit : (0x1F : UInt8).toBitVec.getLsbD i = decide (i < 5) :=
        Nat.testBit_two_pow_sub_one 5 i
      rw [hbit, decide_eq_true h5, Bool.not_true]
    rw [hmask, Bool.and_false, Bool.and_false]
  · rfl

/-- What BDH and BDL are given of `ubd`. -/
theorem ubd_parts (ubd : UInt16) :
    ((ubd &&& 0x1F00) >>> 8).toNat = ubd.toNat / 256 % 32 ∧
      (ubd &&& 0xFF).toUInt8.toNat = ubd.toNat % 256 := by
  constructor
  · rw [UInt16.toNat_shiftRight, UInt16.toNat_and]
    show (ubd.toNat &&& 0x1F00) >>> 8 = _
    rw [Nat.shiftRight_and_distrib, Nat.shiftRight_eq_div_pow]
    exact Nat.and_two_pow_sub_one_eq_mod (ubd.toNat / 256) 5
  · rw [UInt16.toNat_toUInt8, UInt16.toNat_and]
    show (ubd.toNat &&& 0xFF) % 256 = _
    rw [show ubd.toNat &&& 0xFF = ubd.toNat % 256 from Nat.and_two_pow_sub_one_eq_mod ubd.toNat 8,
      Nat.mod_mod]

theorem c4BRFA_toNat (n : UInt16) : (c4BRFA n).toNat = n.toNat % 32 := by
  rw [c4BRFA, UInt16.toNat_and]
  exact Nat.and_two_pow_sub_one_eq_mod n.toNat 5

end Fields

/-! ## The division -/

section Division

variable {baud : UInt32}

theorem baud_mul (h : baud.toNat ≤ 1875000) : (baud * 16).toNat = baud.toNat * 16 := by
  rw [UInt32.toNat_mul]
  show baud.toNat * 16 % 2 ^ 32 = _
  omega

theorem ubdValue_toNat (h : baud.toNat ≤ 1875000) :
    (ubdValue baud).toNat = 60000 / baud.toNat / 32 := by
  calc (ubdValue baud).toNat = 1875 * 16 / (baud.toNat * 16) := by
        rw [ubdValue, UInt32.toNat_div, baud_mul h]
        rfl
    _ = 1875 / baud.toNat := Nat.mul_div_mul_right _ _ (Nat.succ_pos 15)
    _ = 1875 * 32 / (baud.toNat * 32) := (Nat.mul_div_mul_right _ _ (Nat.succ_pos 31)).symm
    _ = 60000 / baud.toNat / 32 := (Nat.div_div_eq_div_mul _ _ _).symm

/-- **What is left** for `brfa` are the low bits of the quotient. -/
theorem brfaValue_toNat (h : baud.toNat ≤ 1875000) :
    (ubdValue baud).toUInt16.toNat = 60000 / baud.toNat / 32 ∧
      (brfaValue baud (ubdValue baud).toUInt16).toNat = 60000 / baud.toNat % 32 := by
  have hubd := ubdValue_toNat h
  have hle : 60000 / baud.toNat ≤ 60000 := Nat.div_le_self _ _
  have hcut : (ubdValue baud).toUInt16.toNat = 60000 / baud.toNat / 32 := by
    rw [UInt32.toNat_toUInt16, hubd]
    omega
  have hmul : ((ubdValue baud).toUInt16.toUInt32 * 32).toNat = 60000 / baud.toNat / 32 * 32 := by
    rw [UInt32.toNat_mul, UInt16.toNat_toUInt32, hcut]
    show _ * 32 % 2 ^ 32 = _
    omega
  have hquot : (sysclk * 32000 / (baud * 16)).toNat = 60000 / baud.toNat := by
    rw [UInt32.toNat_div, baud_mul h]
    exact Nat.mul_div_mul_right 60000 baud.toNat (Nat.succ_pos 15)
  refine ⟨hcut, ?_⟩
  rw [brfaValue, UInt32.toNat_sub_of_le, hmul, hquot]
  · omega
  · rw [UInt32.le_iff_toNat_le, hmul, hquot]
    omega

end Division

/-- **What `UART_init` programs**: the quotient for a clock of 30 kHz, of which nothing is cut, in
fields that leave the other bits alone. -/
theorem init_programs (regs : Uart0) {baud : UInt32} (hpos : 0 < baud.toNat)
    (h : baud.toNat ≤ 1875000) :
    ∃ regs', init regs baud = some regs' ∧ regs'.sbr = 60000 / baud.toNat / 32 ∧
      regs'.brfa = 60000 / baud.toNat % 32 ∧ SameOutside regs regs' ∧ NothingCut baud := by
  obtain ⟨hubd, hbrfa⟩ := brfaValue_toNat h
  have hle : 60000 / baud.toNat ≤ 60000 := Nat.div_le_self _ _
  obtain ⟨hhigh, hlow⟩ := ubd_parts (ubdValue baud).toUInt16
  rw [hubd] at hhigh hlow
  have hfine := c4BRFA_toNat (brfaValue baud (ubdValue baud).toUInt16).toUInt16
  rw [UInt32.toNat_toUInt16, hbrfa] at hfine
  have hne : baud * 16 ≠ 0 := by
    intro h0
    have h0 := congrArg UInt32.toNat h0
    rw [baud_mul h] at h0
    have h0 : baud.toNat * 16 = 0 := h0
    omega
  refine ⟨_, if_neg hne, ?_, ?_, ⟨?_, ?_⟩, ?_, ?_⟩
  · rw [Uart0.sbr, putField_toNat (by rw [hhigh]; omega), hhigh, hlow]
    omega
  · rw [Uart0.brfa, putField_toNat (by rw [hfine]; omega), hfine]
    omega
  · exact putField_outside (by rw [hhigh]; omega)
  · exact putField_outside (by rw [hfine]; omega)
  · rw [ubdValue_toNat h]
    show 60000 / baud.toNat / 32 < 65536
    omega
  · rw [hbrfa]
    show 60000 / baud.toNat % 32 < 65536
    omega

end UART

/-- **UART_init never programs the rate** it is asked for, for any baud rate that the clock of
30 MHz can be divided to: the divisor is the one for 30 kHz.  The rest is as it should be. -/
theorem uart_rate_never (regs : Uart0) {baud : UInt32} (hlow : 229 ≤ baud.toNat)
    (hhigh : baud.toNat ≤ 1875000) :
    ∃ regs', UART.init regs baud = some regs' ∧ ¬ DivisorFor 30000000 baud regs' ∧
      32 * regs'.sbr + regs'.brfa = 2 * 30000 / baud.toNat ∧ regs'.brfa ≤ 31 ∧
      SameOutside regs regs' ∧ NothingCut baud := by
  obtain ⟨regs', hinit, hsbr, hbrfa, houtside, hcut⟩ :=
    UART.init_programs regs (show 0 < baud.toNat by omega) hhigh
  have hquot : 32 * regs'.sbr + regs'.brfa = 60000 / baud.toNat := by
    rw [hsbr, hbrfa]
    omega
  refine ⟨regs', hinit, ?_, hquot, by rw [hbrfa]; omega, houtside, hcut⟩
  intro hdiv
  have hexact : 60000 / baud.toNat = 60000000 / baud.toNat := hquot.symm.trans hdiv.exact
  have hsum : 60000 / baud.toNat + 1 ≤ 60000000 / baud.toNat := by
    rw [Nat.le_div_iff_mul_le (by omega), Nat.add_mul]
    have hmul := Nat.div_mul_le_self 60000 baud.toNat
    omega
  omega

/-- At 115200 baud the divisor is zero; that of the clock is 16. -/
theorem uart_rate_never_115200 :
    ∃ regs', UART.init ⟨0, 0, 0, 0, 0⟩ 115200 = some regs' ∧
      ¬ DivisorFor 30000000 115200 regs' ∧
      32 * regs'.sbr + regs'.brfa = 2 * 30000 / 115200 ∧ regs'.brfa ≤ 31 ∧
      SameOutside ⟨0, 0, 0, 0, 0⟩ regs' ∧ NothingCut 115200 :=
  uart_rate_never ⟨0, 0, 0, 0, 0⟩ (by decide) (by decide)

/-- The divisor that 115200 baud is set up with is zero. -/
theorem uart_rate_counterexample :
    (UART.init ⟨0, 0, 0, 0, 0⟩ 115200).map (fun regs => (regs.sbr, regs.brfa)) = some (0, 0) ∧
    ¬ ∃ regs', UART.init ⟨0, 0, 0, 0, 0⟩ 115200 = some regs' ∧
      DivisorFor 30000000 115200 regs' := by
  have hzero : (UART.init ⟨0, 0, 0, 0, 0⟩ 115200).map (fun regs => (regs.sbr, regs.brfa)) =
      some (0, 0) := by decide +kernel
  refine ⟨hzero, ?_⟩
  rintro ⟨regs', hinit, hdiv⟩
  rw [hinit, Option.map_some, Option.some.injEq, Prod.mk.injEq] at hzero
  have hpos := hdiv.pos
  rw [hzero.1] at hpos
  exact absurd hpos (Nat.not_succ_le_zero 0)

end Ulisse
