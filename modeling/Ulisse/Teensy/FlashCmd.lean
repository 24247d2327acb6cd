import Ulisse.Lib.Thumb
import Ulisse.Teensy.Flash

/-!
# Teensy.FlashCmd — the machine code of `do_flash_cmd`

`EEPROM_init` launches the flash command with eight halfwords of machine code that it puts on the
stack and calls.  Called with the address of `FTFL_FSTAT`, wherever the code is, they do what
`Flash.doFlashCmd` says, and return to the caller with only `r3` and the flags changed
(`doFlashCmd_code`).
-/

namespace Ulisse

open Device Prog Thumb

namespace Flash

/-- `do_flash_cmd` -/
def doFlashCmdCode : List UInt16 :=
  [0xf06f, 0x037f, 0x7003, 0x7803, 0xf013, 0x0f80, 0xd0fb, 0x4770]

/-- A step of the machine code at `base`. -/
abbrev codeStep (base : UInt32) : Cpu → Effect Cpu UInt32 UInt8 FlashOrder UInt32 :=
  next doFlashCmdCode base .set

/-- `do_flash_cmd`, and back to the address in `lr`. -/
def calledFlashCmd (lr : UInt32) : Flash UInt32 := do
  doFlashCmd
  pure lr

/-- The loop of the machine code, and back. -/
def waiting (lr : UInt32) : Flash UInt32 :=
  poll ftflFstat (fun status => status &&& ccif ≠ 0) fun _ => ret lr

/-- What is left once a status was read. -/
def tested (lr : UInt32) (status : UInt8) : Flash UInt32 :=
  if status &&& ccif ≠ 0 then ret lr else waiting lr

theorem calledFlashCmd_eq (lr : UInt32) :
    calledFlashCmd lr = tell (.set ftflFstat ccif) (waiting lr) := rfl

theorem waiting_step (lr : UInt32) (status : UInt8) :
    step (waiting lr) (.asked ftflFstat status) = some (tested lr status, ()) := by
  rw [waiting, step, if_pos rfl, tested]
  simp only [decide_eq_true_eq]
  rfl

/-- What the machine code keeps of the registers. -/
structure Kept (c₀ c : Cpu) : Prop where
  regs (r : Fin 16) (hr : r ≠ 3) : c.regs r = c₀.regs r

/-- What is left of the program at each instruction. -/
inductive At (base lr : UInt32) (c : Cpu) : Flash UInt32 → Prop where
  | mvn (hpc : c.pc = base + 0) : At base lr c (calledFlashCmd lr)
  | strb (hpc : c.pc = base + 4) (h3 : (c.regs 3).toUInt8 = ccif) : At base lr c (calledFlashCmd lr)
  | ldrb (hpc : c.pc = base + 6) : At base lr c (waiting lr)
  | tst (status : UInt8) (hpc : c.pc = base + 8) (h3 : c.regs 3 = status.toUInt32) :
    At base lr c (tested lr status)
  | beq (status : UInt8) (hpc : c.pc = base + 12) (hz : c.z = decide (status &&& ccif = 0)) :
    At base lr c (tested lr status)
  | bx (hpc : c.pc = base + 14) : At base lr c (ret lr)

/-- How many instructions until something is seen. -/
def unseen (base : UInt32) (c : Cpu) : ℕ :=
  if c.pc = base + 0 then 1 else if c.pc = base + 8 then 2 else if c.pc = base + 12 then 1 else 0

section Code

variable {base lr : UInt32} {c₀ c : Cpu} {p : Flash UInt32}

theorem fetch_code (base : UInt32) :
    fetch doFlashCmdCode base (base + 0) = some (.mvn 3 0x7F, 4) ∧
    fetch doFlashCmdCode base (base + 4) = some (.strb 3 0 0, 2) ∧
    fetch doFlashCmdCode base (base + 6) = some (.ldrb 3 0 0, 2) ∧
    fetch doFlashCmdCode base (base + 8) = some (.tst 3 0x80, 4) ∧
    fetch doFlashCmdCode base (base + 12) = some (.b true (0 - 10), 2) ∧
    fetch doFlashCmdCode base (base + 14) = some (.bx 14, 2) := by
  simp only [fetch_add]
  decide

theorem test_ccif (status : UInt8) :
    (status.toUInt32 &&& 0x80 = 0) ↔ status &&& ccif = 0 := by
  rw [show (0x80 : UInt32) = ccif.toUInt32 from rfl, ← UInt8.toUInt32_and,
    show (0 : UInt32) = (0 : UInt8).toUInt32 from rfl, UInt8.toUInt32_inj]

theorem unseen_at {o : UInt32} (hpc : c.pc = base + o) :
    unseen base c = if o = 0 then 1 else if o = 8 then 2 else if o = 12 then 1 else 0 := by
  rw [unseen, hpc]
  simp only [UInt32.add_right_inj]

/-- **Each instruction does its part of the program.** -/
theorem code_implements (base : UInt32) (h0 : c₀.regs 0 = ftflFstat)
    (h14 : c₀.regs 14 &&& 1 = 1) :
    Implements (codeStep base) (fun c p => Kept c₀ c ∧ At base (c₀.regs 14) c p) (unseen base) := by
  obtain ⟨hmvn, hstrb, hldrb, htst, hbeq, hbx⟩ := fetch_code base
  rintro c p ⟨hk, hat⟩
  have hr0 : c.regs 0 + 0 = ftflFstat := by
    rw [UInt32.add_zero, hk.regs 0 (by decide), h0]
  cases hat with
  | mvn hpc =>
    rw [codeStep, next_of (hpc ▸ hmvn)]
    have hpc' : c.pc + 4 = base + 4 := by rw [hpc, UInt32.add_zero]
    refine ⟨⟨⟨fun r hr => (Function.update_of_ne hr _ _).trans (hk.regs r hr)⟩, .strb hpc' ?_⟩, ?_⟩
    · dsimp only
      rw [Function.update_self]
      rfl
    · rw [unseen_at hpc', unseen_at hpc]
      decide
  | strb hpc h3 =>
    rw [codeStep, next_of (hpc ▸ hstrb), execute, hr0, h3]
    have hpc' : c.pc + 2 = base + 6 := by rw [hpc, UInt32.add_assoc]; rfl
    rw [calledFlashCmd_eq]
    refine ⟨⟨waiting _, ?_, ⟨hk.regs⟩, .ldrb hpc'⟩, fun e p' hstep => told_of_step hstep⟩
    rw [step, if_pos rfl]
  | ldrb hpc =>
    rw [codeStep, next_of (hpc ▸ hldrb), execute, hr0]
    have hpc' : c.pc + 2 = base + 8 := by rw [hpc, UInt32.add_assoc]; rfl
    refine ⟨fun status => ⟨tested _ status, waiting_step _ status, ⟨fun r hr => ?_⟩,
      .tst status hpc' ?_⟩, fun e p' hstep => asked_of_step hstep⟩
    · exact (Function.update_of_ne hr _ _).trans (hk.regs r hr)
    · dsimp only
      rw [Function.update_self]
  | tst status hpc h3 =>
    rw [codeStep, next_of (hpc ▸ htst)]
    have hpc' : c.pc + 4 = base + 12 := by rw [hpc, UInt32.add_assoc]; rfl
    refine ⟨⟨⟨hk.regs⟩, .beq status hpc' ?_⟩, ?_⟩
    · rw [h3]
      exact decide_eq_decide.mpr (test_ccif status)
    · rw [unseen_at hpc', unseen_at hpc]
      decide
  | beq status hpc hz =>
    rw [codeStep, next_of (hpc ▸ hbeq), execute, hz, tested]
    have hback : (12 + (4 + (0 - 10)) : UInt32) = 6 := by decide
    by_cases hset : status &&& ccif = 0
    · have hpc' : c.pc + 4 + (0 - 10) = base + 6 := by
        rw [hpc, UInt32.add_assoc, UInt32.add_assoc, hback]
      rw [if_neg (not_not.mpr hset), if_pos (decide_eq_true hset), hpc']
      refine ⟨⟨⟨hk.regs⟩, .ldrb rfl⟩, ?_⟩
      rw [unseen_at (o := 6) rfl, unseen_at hpc]
      decide
    · have hpc' : c.pc + 2 = base + 14 := by rw [hpc, UInt32.add_assoc]; rfl
      rw [if_pos hset, if_neg (by rw [decide_eq_false hset]; decide)]
      refine ⟨⟨⟨hk.regs⟩, .bx hpc'⟩, ?_⟩
      rw [unseen_at hpc', unseen_at hpc]
      decide
  | bx hpc =>
    have h14' : c.regs 14 = c₀.regs 14 := hk.regs 14 (by decide)
    rw [codeStep, next_of (hpc ▸ hbx), execute, h14', if_pos h14]
    exact rfl

/-- **What the machine code does**: called at any address with that of `FTFL_FSTAT` in `r0`, its
executions show exactly the runs of `do_flash_cmd`; it returns to its caller where that has ended,
and nowhere else; no step is undefined, and no register but `r3` is changed. -/
theorem doFlashCmd_code (hpc : c.pc = base) (h0 : c.regs 0 = ftflFstat)
    (h14 : c.regs 14 &&& 1 = 1) (es : List FlashEvent) :
    ((∃ t, Executes (codeStep base) c es t) ↔ ∃ p, Leads (calledFlashCmd (c.regs 14)) es p) ∧
    (∀ r, (∃ t, Executes (codeStep base) c es t ∧ codeStep base t = .exit r) ↔
      Leads (calledFlashCmd (c.regs 14)) es (ret r)) ∧
    ∀ t, Executes (codeStep base) c es t →
      codeStep base t ≠ .stuck ∧ ∀ r, r ≠ 3 → t.regs r = c.regs r := by
  have himpl := code_implements base h0 h14
  have hstart : Kept c c ∧ At base (c.regs 14) c (calledFlashCmd (c.regs 14)) :=
    ⟨⟨fun _ _ => rfl⟩, .mvn (hpc.trans (UInt32.add_zero base).symm)⟩
  refine ⟨himpl.executes hstart, fun r => himpl.exits hstart, fun t hexec => ?_⟩
  obtain ⟨p', -, hk, -⟩ := himpl.forward hstart hexec
  exact ⟨himpl.never_stuck hstart hexec, hk.regs⟩

/-- The processor at a call of the machine code. -/
def flashCall : Cpu :=
  ⟨fun r => if r.val = 0 then ftflFstat else if r.val = 14 then 0x101 else 0, 0x20007F00, false, false⟩

/-- The command takes two looks. -/
theorem doFlashCmd_code_call : ∃ t,
    Executes (codeStep 0x20007F00) flashCall
      [.told (.set ftflFstat 0x80), .asked ftflFstat 0, .asked ftflFstat 0x80] t ∧
    codeStep 0x20007F00 t = .exit 0x101 := by
  have hpc : flashCall.pc = 0x20007F00 := rfl
  have h0 : flashCall.regs 0 = ftflFstat := rfl
  have h14 : flashCall.regs 14 &&& 1 = 1 := rfl
  have hlr : flashCall.regs 14 = 0x101 := rfl
  have hlead : Leads (calledFlashCmd 0x101)
      [.told (.set ftflFstat 0x80), .asked ftflFstat 0, .asked ftflFstat 0x80] (ret 0x101) :=
    ⟨_, rfl⟩
  have hcode := (doFlashCmd_code hpc h0 h14
    [.told (.set ftflFstat 0x80), .asked ftflFstat 0, .asked ftflFstat 0x80]).2.1 0x101
  rw [hlr] at hcode
  exact hcode.mpr hlead

end Code

end Flash

end Ulisse
