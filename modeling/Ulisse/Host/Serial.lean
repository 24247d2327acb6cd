import Mathlib.Data.Int.Notation
import Mathlib.Logic.Function.Basic
import Mathlib.Tactic.SplitIfs

/-!
# Host.Serial — the serial port of the host

`serial_linux.c`.  A port is the attributes that the system holds for it; the calls that read and
write them may fail.  The C library keeps a speed in two places, one of them among the control bits.
What `UlisseClient_init` does to the port before it allocates anything is `connect`: it succeeds only
for the two speeds that `serial_set_interface_attribs` knows, and then the port is raw, with eight
bits and no parity, and blocking (`connect_cases`).
-/

namespace Ulisse

/-- `struct termios` -/
structure Termios where
  cIflag : UInt32
  cOflag : UInt32
  cCflag : UInt32
  cLflag : UInt32
  cCc : Fin 32 → UInt8
  cIspeed : UInt32
  cOspeed : UInt32

namespace Termios

/-- `IGNBRK | BRKINT | PARMRK | ISTRIP | INLCR | IGNCR | ICRNL | IXON` -/
def cookedInput : UInt32 := 0x5EB

/-- `OPOST` -/
def opost : UInt32 := 0x1

/-- `ECHO | ECHONL | ICANON | ISIG | IEXTEN` -/
def cookedLocal : UInt32 := 0x804B

/-- `CSIZE` -/
def csize : UInt32 := 0x30

/-- `CS8` -/
def cs8 : UInt32 := 0x30

/-- `PARENB` -/
def parenb : UInt32 := 0x100

/-- `PARODD` -/
def parodd : UInt32 := 0x200

/-- `CBAUD`: the control bits for the speed -/
def cbaud : UInt32 := 0x100F

/-- `IBAUD0`, the mark of the C library for an input speed that is the output speed -/
def ibaud0 : UInt32 := 0x80000000

/-- `B57600` -/
def b57600 : UInt32 := 0x1001

/-- `B115200` -/
def b115200 : UInt32 := 0x1002

/-- `VTIME` -/
def vtime : Fin 32 := 5

/-- `VMIN` -/
def vmin : Fin 32 := 6

/-- `cfsetospeed`, of a speed that is one -/
def cfsetospeed (t : Termios) (speed : UInt32) : Termios :=
  { t with
    cOspeed := speed
    cCflag := (t.cCflag &&& ~~~cbaud) ||| speed }

/-- `cfsetispeed`, of a speed that is one and not 0 -/
def cfsetispeed (t : Termios) (speed : UInt32) : Termios :=
  { t with
    cIspeed := speed
    cIflag := t.cIflag &&& ~~~ibaud0
    cCflag := (t.cCflag &&& ~~~cbaud) ||| speed }

/-- `cfmakeraw` -/
def cfmakeraw (t : Termios) : Termios :=
  { t with
    cIflag := t.cIflag &&& ~~~cookedInput
    cOflag := t.cOflag &&& ~~~opost
    cLflag := t.cLflag &&& ~~~cookedLocal
    cCflag := (t.cCflag &&& ~~~(csize ||| parenb)) ||| cs8
    cCc := Function.update (Function.update t.cCc vmin 1) vtime 0 }

end Termios

open Termios

/-- What the calls on the port answer: the descriptor of `open`, and whether `tcgetattr` and
`tcsetattr` succeed, in `serial_set_interface_attribs` and in `serial_set_blocking`. -/
structure PortAnswers where
  opened : ℤ
  getAttribs : Bool
  setAttribs : Bool
  getBlocking : Bool
  setBlocking : Bool

/-- The constant for a speed. -/
def speedOf (speed : Int32) : Option UInt32 :=
  if speed = 57600 then some b57600 else if speed = 115200 then some b115200 else none

/-- `serial_set_interface_attribs`: what it returns, and the port behind it. -/
def serialSetInterfaceAttribs (get set : Bool) (port : Termios) (speed : Int32) (parity : UInt32) :
    ℤ × Termios :=
  if get = false then (-1, port)
  else match speedOf speed with
    | none => (-1, port)
    | some speed =>
      let tty := cfsetospeed port speed
      let tty := cfsetispeed tty speed
      let tty := cfmakeraw tty
      let tty := { tty with cCflag := tty.cCflag &&& ~~~(parenb ||| parodd) }
      let tty := { tty with cCflag := tty.cCflag ||| parity }
      let tty := { tty with cCflag := (tty.cCflag &&& ~~~csize) ||| cs8 }
      if set = false then (-1, port) else (0, tty)

/-- `serial_set_blocking` -/
def serialSetBlocking (get set : Bool) (port : Termios) (shouldBlock : Bool) : Termios :=
  if get = false then port
  else
    let cCc := Function.update port.cCc vmin (if shouldBlock then 1 else 0)
    let tty := { port with cCc := Function.update cCc vtime 5 }
    if set = false then port else tty

/-- What `UlisseClient_init` does to the port: the descriptor, if it goes on with one. -/
def connect (a : PortAnswers) (port : Termios) (baudrate : UInt32) : Option ℤ × Termios :=
  if a.opened < 0 then (none, port)
  else
    let (attribs, port) :=
      serialSetInterfaceAttribs a.getAttribs a.setAttribs port baudrate.toInt32 0
    if attribs < 0 then (none, port)
    else
      let port := serialSetBlocking a.getBlocking a.setBlocking port true
      if a.opened = 0 then (none, port) else (some a.opened, port)

/-- `new` is `old` as a raw port with eight bits and no parity at the speed. -/
structure Raw (old new : Termios) (speed : UInt32) : Prop where
  iflag : new.cIflag = old.cIflag &&& ~~~(ibaud0 ||| cookedInput)
  oflag : new.cOflag = old.cOflag &&& ~~~opost
  lflag : new.cLflag = old.cLflag &&& ~~~cookedLocal
  cflag : new.cCflag =
    (old.cCflag &&& ~~~(cbaud ||| csize ||| parenb ||| parodd)) ||| (speed ||| cs8)
  speeds : new.cIspeed = speed ∧ new.cOspeed = speed

section Connect

variable {a : PortAnswers} {port port' : Termios} {baudrate : UInt32}

theorem or_and (a b c : UInt32) : (a ||| b) &&& c = (a &&& c) ||| (b &&& c) := by
  refine UInt32.toBitVec_inj.mp (BitVec.eq_of_getLsbD_eq fun i _ => ?_)
  simp only [UInt32.toBitVec_and, UInt32.toBitVec_or, BitVec.getLsbD_and, BitVec.getLsbD_or,
    Bool.and_or_distrib_right]

/-- Bits are cleared and set, and again. -/
theorem put_put (c keep keep' bits bits' : UInt32) :
    ((c &&& keep) ||| bits) &&& keep' ||| bits' =
      (c &&& (keep &&& keep')) ||| (bits &&& keep' ||| bits') := by
  rw [or_and, UInt32.and_assoc, UInt32.or_assoc]

theorem speedOf_some {speed : Int32} {b : UInt32} (h : speedOf speed = some b) :
    b = b57600 ∨ b = b115200 := by
  unfold speedOf at h
  split_ifs at h
  · exact Or.inl (Option.some_inj.mp h).symm
  · exact Or.inr (Option.some_inj.mp h).symm

/-- The control bits that are set and cleared more than once. -/
theorem control_once (c : UInt32) {speed : UInt32} (h : speed = b57600 ∨ speed = b115200) :
    ((((((c &&& ~~~cbaud) ||| speed) &&& ~~~cbaud ||| speed) &&& ~~~(csize ||| parenb) ||| cs8) &&&
      ~~~(parenb ||| parodd) ||| 0) &&& ~~~csize) ||| cs8 =
      (c &&& ~~~(cbaud ||| csize ||| parenb ||| parodd)) ||| (speed ||| cs8) := by
  simp only [put_put]
  rcases h with rfl | rfl <;> rfl

/-- The attributes are set for a speed that is known, if the calls succeed; if not the port is left
alone. -/
theorem attribs_cases (get set : Bool) (port : Termios) (speed : Int32) :
    (∃ b, speedOf speed = some b ∧ get = true ∧ set = true ∧
      (serialSetInterfaceAttribs get set port speed 0).1 = 0 ∧
      Raw port (serialSetInterfaceAttribs get set port speed 0).2 b ∧
      (serialSetInterfaceAttribs get set port speed 0).2.cCc =
        Function.update (Function.update port.cCc vmin 1) vtime 0) ∨
    ((speedOf speed = none ∨ get = false ∨ set = false) ∧
      serialSetInterfaceAttribs get set port speed 0 = (-1, port)) := by
  unfold serialSetInterfaceAttribs
  cases get with
  | false => exact Or.inr ⟨Or.inr (Or.inl rfl), rfl⟩
  | true =>
    cases hspeed : speedOf speed with
    | none => exact Or.inr ⟨Or.inl rfl, rfl⟩
    | some b =>
      cases set with
      | false => exact Or.inr ⟨Or.inr (Or.inr rfl), rfl⟩
      | true =>
        refine Or.inl ⟨b, rfl, rfl, rfl, rfl, ?_, rfl⟩
        exact ⟨UInt32.and_assoc _ _ _, rfl, rfl, control_once _ (speedOf_some hspeed), rfl, rfl⟩

/-- Blocking changes two characters, if the calls succeed. -/
theorem blocking_keeps (get set : Bool) (port : Termios) (shouldBlock : Bool) :
    ∃ cCc, serialSetBlocking get set port shouldBlock = { port with cCc } ∧
      (∀ i, i ≠ vmin → i ≠ vtime → cCc i = port.cCc i) ∧
      cCc vmin = (if get ∧ set then if shouldBlock then 1 else 0 else port.cCc vmin) ∧
      cCc vtime = (if get ∧ set then 5 else port.cCc vtime) := by
  unfold serialSetBlocking
  cases get with
  | false => exact ⟨port.cCc, rfl, fun _ _ _ => rfl, rfl, rfl⟩
  | true =>
    cases set with
    | false => exact ⟨port.cCc, rfl, fun _ _ _ => rfl, rfl, rfl⟩
    | true =>
      refine ⟨_, rfl, fun i hmin htime => ?_, ?_, Function.update_self _ _ _⟩
      · rw [Function.update_of_ne htime, Function.update_of_ne hmin]
      · rw [Function.update_of_ne (by decide), Function.update_self]
        rfl

/-- The port as a client gets it: raw, and a read waits for a byte, and between two of them for half
a second if that could be set. -/
structure Connected (a : PortAnswers) (old new : Termios) (speed : UInt32) : Prop where
  raw : Raw old new speed
  chars : ∀ i, i ≠ vmin → i ≠ vtime → new.cCc i = old.cCc i
  blocking : new.cCc vmin = 1
  timeout : new.cCc vtime = if a.getBlocking ∧ a.setBlocking then 5 else 0

/-- **Connecting**: a descriptor is returned exactly if the port was opened, has another number than
0, and takes one of the two speeds; it is then raw and blocking.  A port that could not be set is left
as it was. -/
theorem connect_cases (a : PortAnswers) (port : Termios) (baudrate : UInt32) :
    (∃ speed, 0 ≤ a.opened ∧ a.getAttribs = true ∧ a.setAttribs = true ∧
      speedOf baudrate.toInt32 = some speed ∧
      (connect a port baudrate).1 = (if a.opened = 0 then none else some a.opened) ∧
      Connected a port (connect a port baudrate).2 speed) ∨
    ((a.opened < 0 ∨ a.getAttribs = false ∨ a.setAttribs = false ∨
      speedOf baudrate.toInt32 = none) ∧ connect a port baudrate = (none, port)) := by
  unfold connect
  by_cases ho : a.opened < 0
  · exact Or.inr ⟨Or.inl ho, if_pos ho⟩
  rw [if_neg ho]
  rcases attribs_cases a.getAttribs a.setAttribs port baudrate.toInt32 with
    ⟨speed, hspeed, hget, hset, hret, hraw, hchars⟩ | ⟨hfail, hret⟩
  · refine Or.inl ⟨speed, Int.not_lt.mp ho, hget, hset, hspeed, ?_⟩
    simp only [hret]
    rw [if_neg (Int.lt_irrefl 0)]
    obtain ⟨cCc, hport, hrest, hmin, htime⟩ := blocking_keeps a.getBlocking a.setBlocking
      (serialSetInterfaceAttribs a.getAttribs a.setAttribs port baudrate.toInt32 0).2 true
    refine ⟨by split_ifs <;> rfl, ?_⟩
    have hnew : Connected a port (serialSetBlocking a.getBlocking a.setBlocking
        (serialSetInterfaceAttribs a.getAttribs a.setAttribs port baudrate.toInt32 0).2 true)
        speed := by
      rw [hport]
      have hone : Function.update (Function.update port.cCc vmin 1) vtime 0 vmin = 1 := by
        rw [Function.update_of_ne (by decide), Function.update_self]
      refine ⟨⟨hraw.iflag, hraw.oflag, hraw.lflag, hraw.cflag, hraw.speeds⟩, ?_, ?_, ?_⟩
      · intro i hi hi'
        refine (hrest i hi hi').trans ((congrFun hchars i).trans ?_)
        rw [Function.update_of_ne hi', Function.update_of_ne hi]
      · refine hmin.trans ?_
        simp only [hchars, hone, if_true, ite_self]
      · refine htime.trans ?_
        rw [hchars, Function.update_self]
    split_ifs <;> exact hnew
  · rw [hret]
    refine Or.inr ⟨Or.inr ?_, rfl⟩
    rcases hfail with h | h | h
    · exact Or.inr (Or.inr h)
    · exact Or.inl h
    · exact Or.inr (Or.inl h)

end Connect

end Ulisse
