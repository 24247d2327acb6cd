import Ulisse.Teensy.Systime
import Ulisse.Teensy.Uart

/-!
# Teensy.UartPort — the serial port and its registers

`UART_init` and `UART_getChar` as the accesses to the registers that they make.  A monitor knows
whether the receiver and the transmitter are on, whether the status said that a byte is there, the
bytes that the data register gave, and what the registers of UART0 hold, for as long as they answer
with what was written to them.  The port is only set up while it is off, a byte is taken with the
first access behind the look that saw it and at no other time, and what is set up is what `UART.init`
says (`uart_session`).
-/

namespace Ulisse

open Device Prog
open Boot (Code BootEvent set simScgc4 usbInit)

namespace UART

/-- `UART0_BDH` -/
def uart0Bdh : UInt32 := 0x4006A000

/-- `UART0_BDL` -/
def uart0Bdl : UInt32 := 0x4006A001

/-- `UART0_C1` -/
def uart0C1 : UInt32 := 0x4006A002

/-- `UART0_C2` -/
def uart0C2 : UInt32 := 0x4006A003

/-- `UART0_S1` -/
def uart0S1 : UInt32 := 0x4006A004

/-- `UART0_D` -/
def uart0D : UInt32 := 0x4006A007

/-- `UART0_C4` -/
def uart0C4 : UInt32 := 0x4006A00A

/-- `PORTA_PCR0` -/
def portaPcr0 : UInt32 := 0x40049000

/-- `PORTA_PCR1` -/
def portaPcr1 : UInt32 := 0x40049004

/-- `UART_S1_RDRF` -/
def s1RDRF : UInt32 := 0x20

/-! ## The code -/

/-- The divisor is computed and written. -/
def programBaud (baud : UInt32) : Code Unit :=
  if baud * 16 = 0 then fail
  else do
    let ubd := (ubdValue baud).toUInt16
    let temp ← read uart0Bdh
    set uart0Bdh (putField temp.toUInt8 ((ubd &&& 0x1F00) >>> 8)).toUInt32
    set uart0Bdl (ubd &&& 0xFF).toUInt8.toUInt32
    let temp ← read uart0C4
    set uart0C4 (putField temp.toUInt8 (c4BRFA (brfaValue baud ubd).toUInt16)).toUInt32

/-- The pins and the clock gate of the port. -/
def connectPort : Code Unit := do
  let pcr0 ← read portaPcr0
  set portaPcr0 (pcr0 ||| (0x200 ||| 0x02))
  let pcr1 ← read portaPcr1
  set portaPcr1 (pcr1 ||| (0x200 ||| 0x04 ||| 0x40))
  let scgc4 ← read simScgc4
  set simScgc4 (scgc4 ||| 0x400)

/-- `UART_init` -/
def initPort (baud : UInt32) : Code Unit := do
  usbInit
  connectPort
  let c2 ← read uart0C2
  set uart0C2 (c2.toUInt8 &&& ~~~(c2RE ||| c2TE)).toUInt32
  set uart0C1 0
  programBaud baud
  let c2 ← read uart0C2
  set uart0C2 (c2.toUInt8 ||| (c2RE ||| c2TE)).toUInt32

/-- `UART_getChar` -/
def getChar : Code UInt8 := do
  await uart0S1 fun s => s &&& s1RDRF ≠ 0
  let d ← read uart0D
  pure d.toUInt8

/-- `n` calls of `UART_getChar`. -/
def getChars : ℕ → Code (List UInt8)
  | 0 => pure []
  | n + 1 => do
    let c ← getChar
    let cs ← getChars n
    pure (c :: cs)

/-- The port is set up, and `n` bytes are taken from it. -/
def session (baud : UInt32) (n : ℕ) : Code (List UInt8) := do
  initPort baud
  getChars n

/-! ## The monitor -/

/-- What the port is ready for. -/
inductive PortStage where
  /-- nothing was done to it -/
  | untouched
  /-- receiver and transmitter were switched off, and it may be set up -/
  | off
  /-- they are on -/
  | on
  /-- the status said that a byte is there -/
  | full
  deriving DecidableEq

/-- The stage, what the registers hold, if all their answers were what was written to them, and the
bytes that were taken. -/
structure Port where
  stage : PortStage
  held : Option Uart0
  got : List UInt8

/-- A register answers. -/
def Port.answer (p : Port) (get : Uart0 → UInt8) (value : UInt8) : Port :=
  { p with held := p.held.filter fun regs => get regs = value }

/-- A register is set up. -/
def Port.config (p : Port) (put : Uart0 → Uart0) : Option Port :=
  if p.stage = .off then some { p with held := p.held.map put } else none

def Port.look (p : Port) (register value : UInt32) : Option Port :=
  if register = uart0Bdh then some (p.answer Uart0.bdh value.toUInt8)
  else if register = uart0C2 then some (p.answer Uart0.c2 value.toUInt8)
  else if register = uart0C4 then some (p.answer Uart0.c4 value.toUInt8)
  else if register = uart0S1 then
    if p.stage = .on then
      some { p with stage := if value &&& s1RDRF ≠ 0 then .full else .on }
    else none
  else if register = uart0D then
    if p.stage = .full then some { p with stage := .on, got := p.got ++ [value.toUInt8] } else none
  else some p

/-- Receiver and transmitter are switched off before, and on behind all else. -/
def Port.switch (p : Port) (c2 : UInt8) : Option Port :=
  let held := p.held.map fun regs => { regs with c2 }
  if p.stage = .untouched ∧ c2 &&& (c2RE ||| c2TE) = 0 then some { p with stage := .off, held }
  else if p.stage = .off ∧ c2 &&& (c2RE ||| c2TE) = c2RE ||| c2TE then
    some { p with stage := .on, held }
  else none

def Port.set (p : Port) (register : UInt32) (value : UInt8) : Option Port :=
  if register = uart0Bdh then p.config fun regs => { regs with bdh := value }
  else if register = uart0Bdl then p.config fun regs => { regs with bdl := value }
  else if register = uart0C1 then p.config fun regs => { regs with c1 := value }
  else if register = uart0C2 then p.switch value
  else if register = uart0C4 then p.config fun regs => { regs with c4 := value }
  else if register = uart0S1 ∨ register = uart0D then none
  else some p

/-- The monitor of the port.  A byte that is there has to be taken before anything else is done. -/
def watchPort (p : Port) : BootEvent → Option Port
  | .asked register value =>
    if p.stage = .full → register = uart0D then p.look register value else none
  | .told (.set register value) => if p.stage = .full then none else p.set register value.toUInt8
  | .told _ => if p.stage = .full then none else some p

/-! ## Rules -/

section Rules

variable {α : Type} {R : α → Port → Prop} {port : Port} {stage : PortStage} {held : Option Uart0}
  {got : List UInt8} {regs : Uart0} {register value : UInt32} {k : Unit → Code α}

theorem port_look (h : port.stage ≠ .full) :
    watchPort port (.asked register value) = port.look register value :=
  if_pos fun hfull => absurd hfull h

theorem port_set (h : port.stage ≠ .full) :
    watchPort port (.told (.set register value)) = port.set register value.toUInt8 :=
  if_neg h

/-- The registers hold `regs`, if that is known. -/
def Shadow (held : Option Uart0) (regs : Uart0) : Prop := ∀ r, held = some r → r = regs

theorem Shadow.map (h : Shadow held regs) (put : Uart0 → Uart0) :
    Shadow (held.map put) (put regs) := by
  intro r hr
  obtain ⟨r', hr', rfl⟩ := Option.map_eq_some_iff.mp hr
  rw [h r' hr']

/-- A register of the port is written. -/
theorem wp_put (put : Uart0 → Uart0) (hheld : Shadow held regs)
    (hset : Port.set ⟨.off, held, got⟩ register value.toUInt8 = some ⟨.off, held.map put, got⟩)
    (hk : ∀ held, Shadow held (put regs) → wp watchPort (k ()) R ⟨.off, held, got⟩) :
    wp watchPort (set register value >>= k) R ⟨.off, held, got⟩ := by
  have hstage : PortStage.off ≠ .full := by decide
  exact wp_order.mpr ⟨_, (port_set hstage).trans hset, hk _ (hheld.map put)⟩

/-- **A register of the port is changed**: it is written with a function of what it answers. -/
theorem wp_modify (stage' : PortStage) (get : Uart0 → UInt8) (put : UInt8 → Uart0 → Uart0)
    (f : UInt8 → UInt8) (hstage : stage ≠ .full) (hheld : Shadow held regs)
    (hlook : ∀ v, Port.look ⟨stage, held, got⟩ register v =
      some (Port.answer ⟨stage, held, got⟩ get v.toUInt8))
    (hset : ∀ held v, Port.set ⟨stage, held, got⟩ register (f v) =
      some ⟨stage', held.map (put (f v)), got⟩)
    (hk : ∀ held, Shadow held (put (f (get regs)) regs) →
      wp watchPort (k ()) R ⟨stage', held, got⟩) :
    wp watchPort (read register >>= fun v => set register (f v.toUInt8).toUInt32 >>= k) R
      ⟨stage, held, got⟩ := by
  rw [wp_read]
  intro v
  have hput : Port.set (Port.answer ⟨stage, held, got⟩ get v.toUInt8) register
      (f v.toUInt8).toUInt32.toUInt8 =
        some ⟨stage', (held.filter fun r => get r = v.toUInt8).map (put (f v.toUInt8)), got⟩ := by
    rw [UInt8.toUInt8_toUInt32]
    exact hset _ _
  have hshadow : Shadow ((held.filter fun r => get r = v.toUInt8).map (put (f v.toUInt8)))
      (put (f (get regs)) regs) := by
    intro r hr
    obtain ⟨r', hr', rfl⟩ := Option.map_eq_some_iff.mp hr
    obtain ⟨hr', hanswer⟩ := Option.filter_eq_some_iff.mp hr'
    obtain rfl := hheld r' hr'
    rw [of_decide_eq_true hanswer]
  exact ⟨_, (port_look hstage).trans (hlook v),
    wp_order.mpr ⟨_, (port_set hstage).trans hput, hk _ hshadow⟩⟩

/-- The event leaves the port alone. -/
def NoPort : BootEvent → Prop
  | .asked register _ => register ∉ [uart0Bdh, uart0C2, uart0C4, uart0S1, uart0D]
  | .told (.set register _) =>
    register ∉ [uart0Bdh, uart0Bdl, uart0C1, uart0C2, uart0C4, uart0S1, uart0D]
  | .told _ => True

theorem wp_noPort {p : Code α} (h : Emits NoPort p) (hstage : port.stage ≠ .full) :
    wp watchPort p (fun _ port' => port' = port) port := by
  refine wp_frame h ?_ rfl
  rintro port' e rfl he
  refine ⟨port', ?_, rfl⟩
  rcases e with ⟨register, value⟩ | (⟨register, value⟩ | d | - | baud | -)
  · have hnot : register ∉ [uart0Bdh, uart0C2, uart0C4, uart0S1, uart0D] := he
    simp only [List.mem_cons, List.not_mem_nil, or_false, not_or] at hnot
    obtain ⟨h1, h2, h3, h4, h5⟩ := hnot
    rw [port_look hstage, Port.look, if_neg h1, if_neg h2, if_neg h3, if_neg h4, if_neg h5]
  · have hnot : register ∉ [uart0Bdh, uart0Bdl, uart0C1, uart0C2, uart0C4, uart0S1, uart0D] := he
    simp only [List.mem_cons, List.not_mem_nil, or_false, not_or] at hnot
    obtain ⟨h1, h2, h3, h4, h5, h6, h7⟩ := hnot
    rw [port_set hstage, Port.set, if_neg h1, if_neg h2, if_neg h3, if_neg h4, if_neg h5,
      if_neg (not_or.mpr ⟨h6, h7⟩)]
  · exact if_neg hstage
  · exact if_neg hstage
  · exact if_neg hstage
  · exact if_neg hstage

end Rules

/-! ## The functions -/

section Session

variable {held : Option Uart0} {got : List UInt8} {regs : Uart0} {baud : UInt32} {n : ℕ}

theorem set_noPort {register : UInt32} (value : UInt32)
    (h : register ∉ [uart0Bdh, uart0Bdl, uart0C1, uart0C2, uart0C4, uart0S1, uart0D]) :
    Emits NoPort (set register value) := ⟨h, trivial⟩

theorem usbInit_noPort : Emits NoPort usbInit := by
  refine emits_read.mpr fun scgc4 => ⟨show simScgc4 ∉ _ by decide, ?_⟩
  exact (set_noPort _ (by decide)).bind fun _ => (set_noPort _ (by decide)).bind fun _ =>
    (set_noPort _ (by decide)).bind fun _ => (set_noPort _ (by decide)).bind fun _ =>
    (set_noPort _ (by decide)).bind fun _ => (set_noPort _ (by decide)).bind fun _ =>
    (set_noPort _ (by decide)).bind fun _ => set_noPort _ (by decide)

theorem connectPort_noPort : Emits NoPort connectPort := by
  refine emits_read.mpr fun pcr0 => ⟨show portaPcr0 ∉ _ by decide, ?_⟩
  refine (set_noPort _ (by decide)).bind fun _ => ?_
  refine emits_read.mpr fun pcr1 => ⟨show portaPcr1 ∉ _ by decide, ?_⟩
  refine (set_noPort _ (by decide)).bind fun _ => ?_
  exact emits_read.mpr fun scgc4 => ⟨show simScgc4 ∉ _ by decide, set_noPort _ (by decide)⟩

theorem switch_off (held : Option Uart0) (got : List UInt8) (v : UInt8) :
    Port.switch ⟨.untouched, held, got⟩ (v &&& ~~~(c2RE ||| c2TE)) =
      some ⟨.off, held.map fun r => { r with c2 := v &&& ~~~(c2RE ||| c2TE) }, got⟩ := by
  have hbits : v &&& ~~~(c2RE ||| c2TE) &&& (c2RE ||| c2TE) = 0 := by
    rw [UInt8.and_assoc, show (~~~(c2RE ||| c2TE) &&& (c2RE ||| c2TE)) = 0 from rfl,
      UInt8.and_zero]
  exact if_pos ⟨rfl, hbits⟩

theorem or_and_mask (v mask : UInt8) : (v ||| mask) &&& mask = mask := by
  refine UInt8.toBitVec_inj.mp (BitVec.eq_of_getLsbD_eq fun i _ => ?_)
  simp only [UInt8.toBitVec_and, UInt8.toBitVec_or, BitVec.getLsbD_and, BitVec.getLsbD_or]
  cases mask.toBitVec.getLsbD i with
  | false => rw [Bool.and_false]
  | true => rw [Bool.or_true, Bool.and_true]

theorem switch_on (held : Option Uart0) (got : List UInt8) (v : UInt8) :
    Port.switch ⟨.off, held, got⟩ (v ||| (c2RE ||| c2TE)) =
      some ⟨.on, held.map fun r => { r with c2 := v ||| (c2RE ||| c2TE) }, got⟩ := by
  have hstage : ¬ (PortStage.off = .untouched ∧
      (v ||| (c2RE ||| c2TE)) &&& (c2RE ||| c2TE) = 0) := fun h => absurd h.1 (by decide)
  rw [Port.switch]
  dsimp only
  rw [if_neg hstage, if_pos ⟨rfl, or_and_mask v _⟩]

theorem programBaud_sets (h : baud * 16 ≠ 0) (hheld : Shadow held regs) :
    wp watchPort (programBaud baud) (fun _ p => ∃ held', p = ⟨.off, held', got⟩ ∧
      Shadow held' { regs with
        bdh := putField regs.bdh (((ubdValue baud).toUInt16 &&& 0x1F00) >>> 8)
        bdl := ((ubdValue baud).toUInt16 &&& 0xFF).toUInt8
        c4 := putField regs.c4
          (c4BRFA (brfaValue baud (ubdValue baud).toUInt16).toUInt16) }) ⟨.off, held, got⟩ := by
  rw [programBaud, if_neg h]
  refine wp_modify .off Uart0.bdh (fun v r => { r with bdh := v })
    (fun v => putField v (((ubdValue baud).toUInt16 &&& 0x1F00) >>> 8)) (by decide) hheld
    (fun _ => rfl) (fun _ _ => rfl) ?_
  intro held hheld
  refine wp_put (fun r => { r with bdl := ((ubdValue baud).toUInt16 &&& 0xFF).toUInt8 }) hheld
    (by rw [UInt8.toUInt8_toUInt32]; rfl) ?_
  intro held hheld
  refine wp_modify (k := pure) .off Uart0.c4 (fun v r => { r with c4 := v })
    (fun v => putField v (c4BRFA (brfaValue baud (ubdValue baud).toUInt16).toUInt16)) (by decide)
    hheld (fun _ => rfl) (fun _ _ => rfl) ?_
  intro held hheld
  exact ⟨held, rfl, hheld⟩

theorem initPort_inits (h : baud * 16 ≠ 0) (hheld : Shadow held regs) :
    wp watchPort (initPort baud) (fun _ p => ∃ held', p = ⟨.on, held', got⟩ ∧
      ∀ regs', held' = some regs' → init regs baud = some regs') ⟨.untouched, held, got⟩ := by
  have huntouched : PortStage.untouched ≠ .full := by decide
  refine wp_seq (wp_noPort usbInit_noPort huntouched) ?_
  rintro - p rfl
  refine wp_seq (wp_noPort connectPort_noPort huntouched) ?_
  rintro - p rfl
  refine wp_modify .off Uart0.c2 (fun v r => { r with c2 := v })
    (fun v => v &&& ~~~(c2RE ||| c2TE)) huntouched hheld (fun _ => rfl)
    (fun held v => switch_off held _ v) ?_
  intro held hheld
  refine wp_put (fun r => { r with c1 := 0 }) hheld rfl ?_
  intro held hheld
  refine wp_seq (programBaud_sets h hheld) ?_
  rintro - p ⟨held, rfl, hheld⟩
  refine wp_modify (k := pure) .on Uart0.c2 (fun v r => { r with c2 := v })
    (fun v => v ||| (c2RE ||| c2TE)) (by decide) hheld (fun _ => rfl)
    (fun held v => switch_on held _ v) ?_
  intro held hheld
  refine ⟨held, rfl, fun regs' hregs' => ?_⟩
  rw [hheld regs' hregs', init, if_neg h]

/-- **A byte is taken** when the status says that one is there. -/
theorem getChar_takes (held : Option Uart0) (got : List UInt8) :
    wp watchPort getChar (fun c p => p = ⟨.on, held, got ++ [c]⟩) ⟨.on, held, got⟩ := by
  have hawait : wp watchPort (await uart0S1 fun s => s &&& s1RDRF ≠ 0)
      (fun _ p => p = ⟨.full, held, got⟩) ⟨.on, held, got⟩ := by
    apply wp_await
    intro s
    refine ⟨⟨if s &&& s1RDRF ≠ 0 then .full else .on, held, got⟩, rfl, ?_⟩
    dsimp only
    split_ifs with hgood hs hs
    · rfl
    · exact absurd (of_decide_eq_true hgood) hs
    · exact absurd (decide_eq_true hs) hgood
    · rfl
  refine wp_seq hawait ?_
  rintro - p rfl
  exact wp_read.mpr fun d => ⟨_, rfl, rfl⟩

theorem getChars_takes (held : Option Uart0) (got : List UInt8) (n : ℕ) :
    wp watchPort (getChars n) (fun cs p => p = ⟨.on, held, got ++ cs⟩ ∧ cs.length = n)
      ⟨.on, held, got⟩ := by
  induction n generalizing got with
  | zero => exact ⟨by rw [List.append_nil], rfl⟩
  | succ n ih =>
    refine wp_seq (getChar_takes held got) ?_
    rintro c p rfl
    refine wp_seq (ih (got ++ [c])) ?_
    rintro cs p ⟨rfl, hlen⟩
    refine ⟨?_, congrArg Nat.succ hlen⟩
    rw [List.append_assoc]
    rfl

theorem initPort_live (h : baud * 16 ≠ 0) : Live (initPort baud) := by
  have husb : Live usbInit := fun _ => trivial
  have hconnect : Live connectPort := fun _ _ _ => trivial
  have hbaud : Live (programBaud baud) := by
    rw [programBaud, if_neg h]
    exact fun _ _ => trivial
  exact husb.bind fun _ => hconnect.bind fun _ _ => hbaud.bind fun _ _ => trivial

theorem getChars_live (n : ℕ) : Live (getChars n) := by
  induction n with
  | zero => trivial
  | succ n ih =>
    have hchar : Live getChar := ⟨⟨s1RDRF, rfl⟩, fun _ _ _ => trivial⟩
    exact hchar.bind fun _ => ih.bind fun _ => trivial

/-- **A session with the serial port**, whatever its registers answer: they are set up only between
the switching off and the switching on, the data register is read with the first access behind each
look at the status that said that a byte is there, and at no other time, and the calls return what it
gave, in its order.  If the
registers hold what is written to them, they are those of `UART.init` in the end; and the session
can always end. -/
theorem uart_session {es : List BootEvent} {p : Code (List UInt8)} (regs : Uart0)
    (h : baud * 16 ≠ 0) (hrun : Leads (session baud n) es p) :
    (∃ port, watched watchPort ⟨.untouched, some regs, []⟩ es = some port ∧
      ∀ cs, p = ret cs → port.stage = .on ∧ port.got = cs ∧ cs.length = n ∧
        ∀ regs', port.held = some regs' → init regs baud = some regs') ∧
    ∃ es' cs, Leads (session baud n) (es ++ es') (ret cs) := by
  have hregs : Shadow (some regs) regs := fun _ hr => (Option.some_inj.mp hr).symm
  have hwp : wp watchPort (session baud n) (fun cs port => port.stage = .on ∧ port.got = cs ∧
      cs.length = n ∧ ∀ regs', port.held = some regs' → init regs baud = some regs')
      ⟨.untouched, some regs, []⟩ := by
    refine wp_seq (initPort_inits h hregs) ?_
    rintro - p ⟨held, rfl, hheld⟩
    refine wp_mono (getChars_takes held [] n) ?_
    rintro cs p ⟨rfl, hlen⟩
    exact ⟨rfl, rfl, hlen, hheld⟩
  have hlive : Live (session baud n) := (initPort_live h).bind fun _ => getChars_live n
  obtain ⟨port, hport, hp⟩ := wp_sound hwp hrun
  refine ⟨⟨port, hport, ?_⟩, hlive.goes_on hrun⟩
  rintro cs rfl
  exact hp

/-- The registers answer with what they were given, and the byte that comes in is an A. -/
theorem uart_session_one : ∃ es port regs',
    Leads (session 9600 1) es (ret [65]) ∧
    watched watchPort ⟨.untouched, some ⟨0, 0, 0, 0, 0⟩, []⟩ es = some port ∧
    port.got = [65] ∧ port.held = some regs' ∧ init ⟨0, 0, 0, 0, 0⟩ 9600 = some regs' := by
  have hrun : Leads (session 9600 1) [.asked simScgc4 0, .told (.set simScgc4 0x40000),
      .told (.set Boot.usb0Istat 0xFF), .told (.set Boot.usb0Errstat 0xFF),
      .told (.set Boot.usb0Otgistat 0xFF), .told (.set Boot.usb0Ctl 1),
      .told (.set Boot.usb0Usbctrl 0), .told (.set Boot.usb0Inten 1),
      .told (.set Boot.usb0Control 0x10), .asked portaPcr0 0, .told (.set portaPcr0 0x202),
      .asked portaPcr1 0, .told (.set portaPcr1 0x244), .asked simScgc4 0x40000,
      .told (.set simScgc4 0x40400), .asked uart0C2 0, .told (.set uart0C2 0),
      .told (.set uart0C1 0), .asked uart0Bdh 0, .told (.set uart0Bdh 0),
      .told (.set uart0Bdl 0), .asked uart0C4 0, .told (.set uart0C4 6), .asked uart0C2 0,
      .told (.set uart0C2 0x0C), .asked uart0S1 0x20, .asked uart0D 65] (ret [65]) := ⟨_, rfl⟩
  obtain ⟨⟨port, hport, hend⟩, -⟩ := uart_session ⟨0, 0, 0, 0, 0⟩ (by decide) hrun
  obtain ⟨-, hgot, -, hinit⟩ := hend [65] rfl
  have hheld : port.held = some ⟨0, 0, 0, 0x0C, 6⟩ := by
    obtain rfl := Option.some_inj.mp hport
    rfl
  exact ⟨_, port, _, hrun, hport, hgot, hheld, hinit _ hheld⟩

end Session

end UART

end Ulisse
