import Ulisse.Lib.Writes
import Ulisse.Teensy.Pins

/-!
# Teensy.DigIo — the digital pins of the chip

The functions of `digio.c` on the contents of the port registers.  The mask of a pin and the value
that is read back pass through `uint8_t` variables, so a pin whose bit is above 7 is deaf: it cannot
be set and reads as zero.  The others are cells of their own, in which the last write wins.
-/

namespace Ulisse

open Writes

/-! ## The functions of `digio.c` -/

/-- The contents of the port registers. -/
abbrev Gpio := GpioRegister → UInt32

/-- A bit of a register. -/
def Gpio.bit (gpio : Gpio) (k : GpioRegister × ℕ) : Bool := (gpio k.1).toBitVec.getLsbD k.2

/-- `PinDirection`: an enumeration of C, so any value can be passed. -/
abbrev PinDirection := UInt32

/-- `uint8_t mask = 1<<bit`. -/
def bitMask (bit : UInt8) : UInt8 := ((1 : UInt32) <<< bit.toUInt32).toUInt8

/-- What `*reg|=mask` and `*reg&=~mask` make of a register. -/
def maskWrite (word : UInt32) (mask : UInt8) (on : Bool) : UInt32 :=
  if on then word ||| mask.toUInt32 else word &&& ~~~mask.toUInt32

/-- The common part of `DigIO_setDirection` and `DigIO_setValue`. -/
def pinWrite (reg : Pin → GpioRegister) (gpio : Gpio) (pin : UInt8) (on : Bool) : Gpio :=
  if h : pin.toNat < pinsNum then
    let mapping := pins.get ⟨pin.toNat, h⟩
    Function.update gpio (reg mapping) (maskWrite (gpio (reg mapping)) (bitMask mapping.bit) on)
  else gpio

/-- The common part of `DigIO_getDirection` and `DigIO_getValue`: `uint8_t value` holds the low
byte of the register. -/
def pinRead (reg : Pin → GpioRegister) (gpio : Gpio) (pin : UInt8) : UInt8 :=
  if h : pin.toNat < pinsNum then
    let mapping := pins.get ⟨pin.toNat, h⟩
    let value := (gpio (reg mapping)).toUInt8
    ((value.toUInt32 >>> mapping.bit.toUInt32) &&& 0x1).toUInt8
  else 0

namespace DigIo

def numChannels : UInt8 := UInt8.ofNat pinsNum

/-- The registers after `DigIO_setDirection`, and what it returns. -/
def setDirection (gpio : Gpio) (pin : UInt8) (dir : PinDirection) : Gpio × UInt8 :=
  (pinWrite Pin.dirRegister gpio pin (dir ≠ 0), if pinsNum ≤ pin.toNat then 1 else 0)

def getDirection (gpio : Gpio) (pin : UInt8) : PinDirection :=
  (pinRead Pin.dirRegister gpio pin).toUInt32

def setValue (gpio : Gpio) (pin value : UInt8) : Gpio :=
  pinWrite Pin.outRegister gpio pin (value ≠ 0)

def getValue (gpio : Gpio) (pin : UInt8) : UInt8 := pinRead Pin.inRegister gpio pin

/-- `DigIO_init`: every pin an input, with its output bit set for the pull-up. -/
def init (gpio : Gpio) : Gpio :=
  (List.range numChannels.toNat).foldl
    (fun g i => setValue (setDirection g (UInt8.ofNat i) 0).1 (UInt8.ofNat i) 1) gpio

end DigIo

/-- A call that writes. -/
inductive DigIoCall where
  | setDirection (pin : UInt8) (dir : PinDirection)
  | setValue (pin value : UInt8)

def DigIoCall.pin : DigIoCall → UInt8
  | setDirection pin _ => pin
  | setValue pin _ => pin

/-- The registers after a call. -/
def digIoStep (gpio : Gpio) : DigIoCall → Gpio
  | .setDirection pin dir => (DigIo.setDirection gpio pin dir).1
  | .setValue pin value => DigIo.setValue gpio pin value

/-- The direction that a call gives for a pin. -/
def DigIoCall.direction? (p : ℕ) : DigIoCall → Option PinDirection
  | setDirection pin dir => if pin.toNat = p then some dir else none
  | setValue _ _ => none

/-- The value that a call gives for a pin. -/
def DigIoCall.value? (p : ℕ) : DigIoCall → Option UInt8
  | setDirection _ _ => none
  | setValue pin value => if pin.toNat = p then some value else none

/-- The direction that was given for a pin last. -/
def lastDirection (calls : List DigIoCall) (p : ℕ) : Option PinDirection :=
  (calls.filterMap (DigIoCall.direction? p)).getLast?

/-- The value that was given for a pin last. -/
def lastValue (calls : List DigIoCall) (p : ℕ) : Option UInt8 :=
  (calls.filterMap (DigIoCall.value? p)).getLast?

/-! ## One register -/

section Word

variable {word : UInt32} {bit : UInt8} {i : ℕ}

theorem shift_toNat (hb : bit.toNat < 32) : (bit.toUInt32.toBitVec % 32).toNat = bit.toNat := by
  show bit.toUInt32.toNat % 32 = _
  rw [UInt8.toNat_toUInt32, Nat.mod_eq_of_lt hb]

/-- The mask has the bit, if the bit is one of a byte, and no other. -/
theorem bitMask_bit (hb : bit.toNat < 32) :
    (bitMask bit).toUInt32.toBitVec.getLsbD i = decide (i = bit.toNat ∧ bit.toNat < 8) := by
  show (((1#32 <<< (bit.toUInt32.toBitVec % 32)).setWidth 8).setWidth 32).getLsbD i = _
  rw [BitVec.getLsbD_setWidth, BitVec.getLsbD_setWidth, BitVec.getLsbD_shiftLeft',
    shift_toNat hb, BitVec.getLsbD_one, Bool.eq_iff_iff]
  simp only [Bool.and_eq_true, decide_eq_true_eq, Bool.not_eq_true', decide_eq_false_iff_not]
  omega

/-- **A write with the mask** sets the bit of the pin if it is below 8, and leaves the others. -/
theorem maskWrite_bit (hb : bit.toNat < 32) (on : Bool) :
    (maskWrite word (bitMask bit) on).toBitVec.getLsbD i =
      if i = bit.toNat ∧ bit.toNat < 8 then on else word.toBitVec.getLsbD i := by
  cases on with
  | true =>
    rw [maskWrite, if_pos rfl, UInt32.toBitVec_or, BitVec.getLsbD_or, bitMask_bit hb]
    split_ifs with hi
    · rw [decide_eq_true hi, Bool.or_true]
    · rw [decide_eq_false hi, Bool.or_false]
  | false =>
    rw [maskWrite, if_neg Bool.false_ne_true, UInt32.toBitVec_and, BitVec.getLsbD_and,
      UInt32.toBitVec_not, BitVec.getLsbD_not, bitMask_bit hb]
    split_ifs with hi
    · rw [decide_eq_true hi, Bool.not_true, Bool.and_false, Bool.and_false]
    · rw [decide_eq_false hi, Bool.not_false, Bool.and_true]
      by_cases h : i < 32
      · rw [decide_eq_true h, Bool.and_true]
      · rw [decide_eq_false h, Bool.and_false, BitVec.getLsbD_of_ge _ _ (by omega)]

/-- **What is read back** is the bit of the pin if it is below 8, and zero otherwise. -/
theorem readBack_bit (hb : bit.toNat < 32) :
    ((word.toUInt8.toUInt32 >>> bit.toUInt32) &&& 0x1).toUInt8 =
      if bit.toNat < 8 ∧ word.toBitVec.getLsbD bit.toNat then 1 else 0 := by
  have htest : ((word.toNat % 2 ^ 8) >>> bit.toNat) % 2 =
      (decide (bit.toNat < 8) && word.toBitVec.getLsbD bit.toNat).toNat := by
    rw [Nat.shiftRight_eq_div_pow, ← Nat.toNat_testBit, Nat.testBit_mod_two_pow]
    rfl
  apply UInt8.toNat_inj.mp
  rw [UInt32.toNat_toUInt8, UInt32.toNat_and, UInt32.toNat_one, Nat.and_one_is_mod,
    UInt32.toNat_shiftRight, UInt8.toNat_toUInt32, UInt8.toNat_toUInt32, Nat.mod_eq_of_lt hb,
    UInt32.toNat_toUInt8, htest]
  split_ifs with h
  · rw [decide_eq_true h.1, h.2]
    rfl
  · have hoff : (decide (bit.toNat < 8) && word.toBitVec.getLsbD bit.toNat) = false := by
      rw [Bool.eq_false_iff]
      intro hon
      rw [Bool.and_eq_true, decide_eq_true_eq] at hon
      exact h hon
    rw [hoff]
    rfl

end Word

/-! ## Pins as cells -/

/-- The bit of a pin in one of its registers. -/
def pinCell (reg : Pin → GpioRegister) (p : Fin pinsNum) : GpioRegister × ℕ :=
  (reg (pins.get p), (pins.get p).bit.toNat)

/-- Where the direction of a pin is. -/
abbrev dirCell := pinCell Pin.dirRegister

/-- Where the value of a pin is put out. -/
abbrev outCell := pinCell Pin.outRegister

/-- The bits that the masks reach. -/
def InMask (k : GpioRegister × ℕ) : Prop := k.2 < 8

instance : DecidablePred InMask := fun k => Nat.decLt k.2 8

/-- What a call for `pin` writes, and where. -/
def pinWriteAt (reg : Pin → GpioRegister) (pin : UInt8) (on : Bool) :
    Option ((GpioRegister × ℕ) × Bool) :=
  if h : pin.toNat < pinsNum then some (pinCell reg ⟨pin.toNat, h⟩, on) else none

def DigIoCall.write : DigIoCall → Option ((GpioRegister × ℕ) × Bool)
  | setDirection pin dir => pinWriteAt Pin.dirRegister pin (dir ≠ 0)
  | setValue pin value => pinWriteAt Pin.outRegister pin (value ≠ 0)

section Cells

variable {gpio : Gpio} {calls : List DigIoCall} {p p' : Fin pinsNum}

theorem outRegister_eq (p : Fin pinsNum) :
    (pins.get p).outRegister = .pdor (pins.get p).dirRegister.port :=
  congrArg Pin.outRegister (pins_on p).1

theorem dirRegister_eq (p : Fin pinsNum) :
    (pins.get p).dirRegister = .pddr (pins.get p).dirRegister.port :=
  congrArg Pin.dirRegister (pins_on p).1

/-- A port and a bit of it belong to one pin. -/
theorem pin_unique (hport : (pins.get p).dirRegister.port = (pins.get p').dirRegister.port)
    (hbit : (pins.get p).bit.toNat = (pins.get p').bit.toNat) : p = p' := by
  refine pins_inj ?_
  rw [(pins_on p).1, (pins_on p').1, hport, UInt8.toNat_inj.mp hbit]

theorem dirCell_inj (h : dirCell p = dirCell p') : p = p' :=
  pin_unique (congrArg (fun k => k.1.port) h) (congrArg Prod.snd h)

theorem outCell_inj (h : outCell p = outCell p') : p = p' := by
  have hport := congrArg Prod.fst h
  rw [show (outCell p).1 = _ from outRegister_eq p,
    show (outCell p').1 = _ from outRegister_eq p'] at hport
  exact pin_unique (GpioRegister.pdor.inj hport) (congrArg Prod.snd h)

theorem dirCell_ne_outCell : dirCell p ≠ outCell p' := by
  intro h
  have hreg := congrArg Prod.fst h
  rw [show (dirCell p).1 = _ from dirRegister_eq p,
    show (outCell p').1 = _ from outRegister_eq p'] at hreg
  cases hreg

/-- **A write at a pin** is a write of its cell, if the mask reaches it. -/
theorem pinWrite_bit (reg : Pin → GpioRegister) (pin : UInt8) (on : Bool) :
    (pinWrite reg gpio pin on).bit =
      (pinWriteAt reg pin on).elim gpio.bit (store InMask gpio.bit) := by
  by_cases h : pin.toNat < pinsNum
  · have hb : (pins.get ⟨pin.toNat, h⟩).bit.toNat < 32 := (pins_on ⟨pin.toNat, h⟩).2
    rw [pinWrite, pinWriteAt, dif_pos h, dif_pos h, Option.elim_some]
    funext ⟨r, i⟩
    by_cases hr : r = reg (pins.get ⟨pin.toNat, h⟩)
    · subst hr
      rw [Gpio.bit, Function.update_self, maskWrite_bit hb]
      by_cases hi : i = (pins.get ⟨pin.toNat, h⟩).bit.toNat
      · subst hi
        refine Eq.trans ?_ (store_self InMask gpio.bit (pinCell reg ⟨pin.toNat, h⟩) on).symm
        exact if_congr ⟨fun hc => hc.2, fun hc => ⟨rfl, hc⟩⟩ rfl rfl
      · rw [if_neg fun hc => hi hc.1, store_of_ne _ _ fun hc => hi (congrArg Prod.snd hc).symm]
        rfl
    · rw [store_of_ne _ _ fun hc => hr (congrArg Prod.fst hc).symm, Gpio.bit,
        Function.update_of_ne hr]
      rfl
  · rw [pinWrite, pinWriteAt, dif_neg h, dif_neg h]
    rfl

/-- **One call** is one write. -/
theorem digIoStep_bit (c : DigIoCall) :
    (digIoStep gpio c).bit = c.write.elim gpio.bit (store InMask gpio.bit) := by
  cases c with
  | setDirection pin dir => exact pinWrite_bit Pin.dirRegister pin (dir ≠ 0)
  | setValue pin value => exact pinWrite_bit Pin.outRegister pin (value ≠ 0)

/-- **Calls** are writes of the cells of their pins. -/
theorem digIoRun_bit (calls : List DigIoCall) :
    (calls.foldl digIoStep gpio).bit =
      (calls.filterMap DigIoCall.write).foldl (store InMask) gpio.bit := by
  induction calls generalizing gpio with
  | nil => rfl
  | cons c cs ih =>
    rw [List.foldl_cons, ih, digIoStep_bit, List.filterMap_cons]
    cases c.write <;> rfl

/-- A call for `pin` writes the cell of `p` if `pin` is `p`. -/
theorem pinWriteAt_self {reg : Pin → GpioRegister} {pin : UInt8} {on : Bool}
    (hinj : ∀ q, pinCell reg q = pinCell reg p → q = p) :
    ((pinWriteAt reg pin on).bind fun w => if w.1 = pinCell reg p then some w.2 else none) =
      if pin.toNat = p then some on else none := by
  by_cases h : pin.toNat < pinsNum
  · rw [pinWriteAt, dif_pos h, Option.bind_some]
    refine if_congr ⟨fun hc => ?_, fun hp => ?_⟩ rfl rfl
    · exact congrArg Fin.val (hinj _ hc)
    · exact congrArg (pinCell reg) (Fin.ext hp)
  · rw [pinWriteAt, dif_neg h, Option.bind_none, if_neg]
    intro hp
    rw [hp] at h
    exact h p.isLt

/-- It does not write what is no cell of its register. -/
theorem pinWriteAt_other {reg : Pin → GpioRegister} {pin : UInt8} {on : Bool}
    {k : GpioRegister × ℕ} (hne : ∀ q, pinCell reg q ≠ k) :
    ((pinWriteAt reg pin on).bind fun w => if w.1 = k then some w.2 else none) = none := by
  by_cases h : pin.toNat < pinsNum
  · rw [pinWriteAt, dif_pos h, Option.bind_some, if_neg (hne _)]
  · rw [pinWriteAt, dif_neg h, Option.bind_none]

/-- What is written to the direction of a pin last is the last direction given for it. -/
theorem last_dirCell :
    last (calls.filterMap DigIoCall.write) (dirCell p) =
      (lastDirection calls p).map fun d => decide (d ≠ 0) := by
  rw [last, lastDirection, ← List.getLast?_map, List.filterMap_filterMap, List.map_filterMap]
  congr 2
  funext c
  cases c with
  | setDirection pin dir =>
    rw [DigIoCall.write, pinWriteAt_self fun _ => dirCell_inj, DigIoCall.direction?]
    split_ifs <;> rfl
  | setValue pin value => exact pinWriteAt_other fun _ => dirCell_ne_outCell.symm

theorem last_outCell :
    last (calls.filterMap DigIoCall.write) (outCell p) =
      (lastValue calls p).map fun v => decide (v ≠ 0) := by
  rw [last, lastValue, ← List.getLast?_map, List.filterMap_filterMap, List.map_filterMap]
  congr 2
  funext c
  cases c with
  | setDirection pin dir => exact pinWriteAt_other fun _ => dirCell_ne_outCell
  | setValue pin value =>
    rw [DigIoCall.write, pinWriteAt_self fun _ => outCell_inj, DigIoCall.value?]
    split_ifs <;> rfl

/-- What is not the direction of a pin that was given one, nor the output of one that was given a
value, is not written. -/
theorem last_other {k : GpioRegister × ℕ}
    (hdir : ∀ p, k = dirCell p → lastDirection calls p = none)
    (hout : ∀ p, k = outCell p → lastValue calls p = none) :
    last (calls.filterMap DigIoCall.write) k = none := by
  by_cases hd : ∃ p, k = dirCell p
  · obtain ⟨p, rfl⟩ := hd
    rw [last_dirCell, hdir p rfl]
    rfl
  · by_cases ho : ∃ p, k = outCell p
    · obtain ⟨p, rfl⟩ := ho
      rw [last_outCell, hout p rfl]
      rfl
    · have hnone : ∀ c : DigIoCall,
          (c.write.bind fun w => if w.1 = k then some w.2 else none) = none := by
        intro c
        cases c with
        | setDirection pin dir => exact pinWriteAt_other fun q hq => hd ⟨q, hq.symm⟩
        | setValue pin value => exact pinWriteAt_other fun q hq => ho ⟨q, hq.symm⟩
      rw [last, List.filterMap_filterMap, List.filterMap_eq_nil_iff.mpr fun c _ => hnone c]
      rfl

/-- **Directions after a run**: the last ones given, in the pins that the masks reach. -/
theorem direction_after :
    (calls.foldl digIoStep gpio).bit (dirCell p) =
      if (pins.get p).bit.toNat < 8 then
        ((lastDirection calls p).map fun d => decide (d ≠ 0)).getD (gpio.bit (dirCell p))
      else gpio.bit (dirCell p) := by
  rw [digIoRun_bit, stores_eq, last_dirCell]
  rfl

/-- **Outputs after a run**, in the same way. -/
theorem value_after :
    (calls.foldl digIoStep gpio).bit (outCell p) =
      if (pins.get p).bit.toNat < 8 then
        ((lastValue calls p).map fun v => decide (v ≠ 0)).getD (gpio.bit (outCell p))
      else gpio.bit (outCell p) := by
  rw [digIoRun_bit, stores_eq, last_outCell]
  rfl

/-- **Reading a pin back** gives its bit, if that is in the low byte of the register. -/
theorem pinRead_eq (reg : Pin → GpioRegister) (p : Fin pinsNum) :
    pinRead reg gpio (UInt8.ofNat p) =
      if (pins.get p).bit.toNat < 8 ∧ gpio.bit (pinCell reg p) then 1 else 0 := by
  have hp : (UInt8.ofNat p).toNat = p :=
    UInt8.toNat_ofNat_of_lt' (Nat.lt_trans p.isLt (by decide))
  have hlt : (UInt8.ofNat p).toNat < pinsNum := by
    rw [hp]
    exact p.isLt
  have hpin : (⟨(UInt8.ofNat p).toNat, hlt⟩ : Fin pinsNum) = p := Fin.ext hp
  rw [pinRead, dif_pos hlt, hpin]
  exact readBack_bit (pins_on p).2

theorem getValue_eq (p : Fin pinsNum) :
    DigIo.getValue gpio (UInt8.ofNat p) =
      if (pins.get p).bit.toNat < 8 ∧ gpio.bit (pinCell Pin.inRegister p) then 1 else 0 :=
  pinRead_eq Pin.inRegister p

theorem getDirection_eq (p : Fin pinsNum) :
    DigIo.getDirection gpio (UInt8.ofNat p) =
      if (pins.get p).bit.toNat < 8 ∧ gpio.bit (dirCell p) then 1 else 0 := by
  rw [DigIo.getDirection, pinRead_eq, apply_ite UInt8.toUInt32]
  rfl

theorem direction_given {d : PinDirection} (hd : lastDirection calls p = some d) :
    (calls.foldl digIoStep gpio).bit (dirCell p) =
      if (pins.get p).bit.toNat < 8 then decide (d ≠ 0) else gpio.bit (dirCell p) := by
  rw [direction_after, hd]
  rfl

theorem value_given {v : UInt8} (hv : lastValue calls p = some v) :
    (calls.foldl digIoStep gpio).bit (outCell p) =
      if (pins.get p).bit.toNat < 8 then decide (v ≠ 0) else gpio.bit (outCell p) := by
  rw [value_after, hv]
  rfl

theorem getDirection_given {d : PinDirection} (hd : lastDirection calls p = some d) :
    DigIo.getDirection (calls.foldl digIoStep gpio) (UInt8.ofNat p) =
      if (pins.get p).bit.toNat < 8 ∧ d ≠ 0 then 1 else 0 := by
  rw [getDirection_eq, direction_given hd]
  refine if_congr (and_congr_right fun hp => ?_) rfl rfl
  rw [if_pos hp, decide_eq_true_eq]

end Cells

/-! ## Independent pins -/

/-- The pins are independent in the run of `calls`: each has the direction and the value that were
given for it last, and nothing else has changed. -/
structure IndependentPins (gpio : Gpio) (calls : List DigIoCall) : Prop where
  direction : ∀ (p : Fin pinsNum) d, lastDirection calls p = some d →
    (calls.foldl digIoStep gpio).bit (dirCell p) = decide (d ≠ 0)
  value : ∀ (p : Fin pinsNum) v, lastValue calls p = some v →
    (calls.foldl digIoStep gpio).bit (outCell p) = decide (v ≠ 0)
  getDirection : ∀ (p : Fin pinsNum) d, lastDirection calls p = some d →
    DigIo.getDirection (calls.foldl digIoStep gpio) (UInt8.ofNat p) = if d ≠ 0 then 1 else 0
  others : ∀ k, (∀ p, k = dirCell p → lastDirection calls p = none) →
    (∀ p, k = outCell p → lastValue calls p = none) →
    (calls.foldl digIoStep gpio).bit k = gpio.bit k

/-- Every pin is an input with its output bit set. -/
def PulledUp (gpio : Gpio) : Prop :=
  ∀ p : Fin pinsNum, gpio.bit (dirCell p) = false ∧ gpio.bit (outCell p) = true

/-- A pin that the masks do not reach is asked for nothing but what it has. -/
def DeafPinsAgree (gpio : Gpio) (calls : List DigIoCall) : Prop :=
  ∀ p : Fin pinsNum, 8 ≤ (pins.get p).bit.toNat →
    (∀ d, lastDirection calls p = some d → d = 0 ∧ gpio.bit (dirCell p) = false) ∧
    (∀ v, lastValue calls p = some v → gpio.bit (outCell p) = decide (v ≠ 0))

/-- The calls of `DigIO_init`. -/
def initCalls : List DigIoCall :=
  (List.range DigIo.numChannels.toNat).flatMap fun i =>
    [.setDirection (UInt8.ofNat i) 0, .setValue (UInt8.ofNat i) 1]

theorem init_calls (gpio : Gpio) : DigIo.init gpio = initCalls.foldl digIoStep gpio := by
  rw [initCalls, List.foldl_flatMap]
  rfl

/-- They are for every pin. -/
theorem initCalls_last (p : Fin pinsNum) :
    lastDirection initCalls p = some 0 ∧ lastValue initCalls p = some 1 := by
  revert p
  decide +kernel

section Pins

variable {gpio : Gpio} {calls : List DigIoCall}

/-- A deaf pin keeps what it has, and reads as an input. -/
theorem IndependentPins.deaf (hind : IndependentPins gpio calls) : DeafPinsAgree gpio calls := by
  intro p hp
  constructor
  · intro d hd
    have hget := hind.getDirection p d hd
    rw [getDirection_given hd, if_neg (by omega)] at hget
    have h0 : d = 0 := by
      by_contra hne
      rw [if_pos hne] at hget
      cases hget
    have hdir := hind.direction p d hd
    rw [direction_given hd, if_neg (by omega), h0] at hdir
    exact ⟨h0, hdir⟩
  · intro v hv
    have hval := hind.value p v hv
    rwa [value_given hv, if_neg (by omega)] at hval

/-- The other pins have what was given for them last. -/
theorem DeafPinsAgree.independent (hagree : DeafPinsAgree gpio calls) :
    IndependentPins gpio calls := by
  constructor
  · intro p d hd
    rw [direction_given hd]
    split_ifs with hp
    · rfl
    · obtain ⟨h0, hbit⟩ := (hagree p (by omega)).1 d hd
      rw [hbit, h0]
      rfl
  · intro p v hv
    rw [value_given hv]
    split_ifs with hp
    · rfl
    · exact (hagree p (by omega)).2 v hv
  · intro p d hd
    rw [getDirection_given hd]
    refine if_congr ⟨fun h => h.2, fun hd0 => ⟨?_, hd0⟩⟩ rfl rfl
    by_contra hp
    exact hd0 ((hagree p (by omega)).1 d hd).1
  · intro k hdir hout
    rw [digIoRun_bit, stores_eq, last_other hdir hout]
    exact ite_self _

theorem digIoStep_unlisted {c : DigIoCall} (hc : pinsNum ≤ c.pin.toNat) :
    digIoStep gpio c = gpio := by
  cases c with
  | setDirection pin dir => exact dif_neg (Nat.not_lt.mpr hc)
  | setValue pin value => exact dif_neg (Nat.not_lt.mpr hc)

/-- `DigIO_init` pulls up the pins that the masks reach. -/
theorem pulledUp_init : PulledUp (DigIo.init gpio) ↔ ∀ p : Fin pinsNum,
    8 ≤ (pins.get p).bit.toNat → gpio.bit (dirCell p) = false ∧ gpio.bit (outCell p) = true := by
  refine forall_congr' fun p => ?_
  rw [init_calls, direction_given (initCalls_last p).1, value_given (initCalls_last p).2]
  by_cases hp : (pins.get p).bit.toNat < 8
  · rw [if_pos hp, if_pos hp]
    exact iff_of_true ⟨rfl, rfl⟩ fun h => absurd hp (Nat.not_lt.mpr h)
  · rw [if_neg hp, if_neg hp]
    exact (imp_iff_right (Nat.not_lt.mp hp)).symm

end Pins

/-- **Pins are independent** in a run exactly if every pin whose bit is above 7 is asked for nothing
but what it has; calls for other numbers change nothing; and `DigIO_init` pulls up every pin exactly
if those above 7 were inputs with their output bits set already. -/
theorem independentPins_iff (gpio : Gpio) (calls : List DigIoCall) :
    (IndependentPins gpio calls ↔ DeafPinsAgree gpio calls) ∧
      (∀ c : DigIoCall, pinsNum ≤ c.pin.toNat → digIoStep gpio c = gpio) ∧
      (PulledUp (DigIo.init gpio) ↔ ∀ p : Fin pinsNum, 8 ≤ (pins.get p).bit.toNat →
        gpio.bit (dirCell p) = false ∧ gpio.bit (outCell p) = true) :=
  ⟨⟨IndependentPins.deaf, DeafPinsAgree.independent⟩, fun _ hc => digIoStep_unlisted hc,
    pulledUp_init⟩

/-- Pin 0 is bit 16 of port B: made an output it stays an input, and its pull-up is not set. -/
theorem independentPins_counterexample :
    (digIoStep (fun _ => 0) (.setDirection 0 1)).bit (dirCell 0) = false ∧
    ¬ IndependentPins (fun _ => 0) [.setDirection 0 1] ∧ ¬ PulledUp (DigIo.init fun _ => 0) := by
  have hdir : (digIoStep (fun _ => 0) (.setDirection 0 1)).bit (dirCell 0) = false := by
    decide +kernel
  have hout : (DigIo.init fun _ => 0).bit (outCell 0) = false := by
    decide +kernel
  refine ⟨hdir, fun hind => ?_, fun hup => ?_⟩
  · exact Bool.false_ne_true (hdir.symm.trans (hind.direction 0 1 rfl))
  · exact Bool.false_ne_true (hout.symm.trans (hup 0).2)

end Ulisse
