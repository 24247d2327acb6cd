import Ulisse.Lib.Device
import Ulisse.Teensy.EepromLoop

/-!
# Teensy.Flash — the flash controller behind the FlexRAM

`eeprom.c` with the registers that it reads and writes.  The controller may say anything at any
time; it is polled, told to partition the flash when it comes up as plain RAM, and given time after
every store.  The accesses to the FlexRAM are those of `EEPROM.write`, whatever the controller says
(`write_refines`).  A unit is stored only when the controller was seen ready since the last store,
but for the first one, which does not wait for a controller that `EEPROM_init` gave up on
(`write_waits`).
-/

namespace Ulisse

open Device Prog ByteMem

/-- `FTFL_FSTAT` -/
def ftflFstat : UInt32 := 0x40020000

/-- `FTFL_FCNFG` -/
def ftflFcnfg : UInt32 := 0x40020001

/-- `FTFL_FCCOB0` -/
def ftflFccob0 : UInt32 := 0x40020007

/-- `FTFL_FCCOB3` -/
def ftflFccob3 : UInt32 := 0x40020004

/-- `FTFL_FCCOB4` -/
def ftflFccob4 : UInt32 := 0x4002000B

/-- `FTFL_FCCOB5` -/
def ftflFccob5 : UInt32 := 0x4002000A

/-- `FTFL_FCNFG_EEERDY` -/
def eeerdy : UInt8 := 0x01

/-- `FTFL_FCNFG_RAMRDY` -/
def ramrdy : UInt8 := 0x02

/-- `FTFL_FSTAT_CCIF` -/
def ccif : UInt8 := 0x80

/-- The error flags of `FTFL_FSTAT`. -/
def fstatErrors : UInt8 := 0x70

/-- What the code does but read a register: it sets one, enables or disables interrupts, or accesses
the FlexRAM. -/
inductive FlashOrder where
  | set (register : UInt32) (value : UInt8)
  | irq (enabled : Bool)
  | access (a : Access)
  deriving DecidableEq, Repr

/-- Code that reads the registers of the controller, which are volatile bytes. -/
abbrev Flash (α : Type) := Prog UInt32 UInt8 FlashOrder α

abbrev FlashEvent := Event UInt32 UInt8 FlashOrder

namespace Flash

/-- `FTFL_…=value` -/
def set (register : UInt32) (value : UInt8) : Flash Unit := order (.set register value)

/-- `uint8_t stat = FTFL_FSTAT & 0x70; if (stat) FTFL_FSTAT = stat;` -/
def clearErrors : Flash Unit := do
  let status ← read ftflFstat
  if status &&& fstatErrors ≠ 0 then set ftflFstat (status &&& fstatErrors) else pure ()

/-- What the machine code of `do_flash_cmd` does: it launches the command and waits for its end. -/
def doFlashCmd : Flash Unit := do
  set ftflFstat ccif
  await ftflFstat fun status => status &&& ccif ≠ 0

/-- The last loop of `EEPROM_init`, when `count` is `left` short of its limit. -/
def waitReady : ℕ → Flash Unit
  | 0 => do
    let _ ← read ftflFcnfg
    pure ()
  | left + 1 => do
    let config ← read ftflFcnfg
    if config &&& eeerdy ≠ 0 then pure () else waitReady left

/-- What `EEPROM_init` does when the FlexRAM came up as plain RAM: the partition command, and a return
if that fails.  `kinetis_hsrun_disable` and `_enable` do nothing on this chip. -/
def partitionFlash : Flash Unit := do
  clearErrors
  set ftflFccob0 0x80
  set ftflFccob3 0
  set ftflFccob4 (0x30 ||| 0x03)
  set ftflFccob5 0x03
  order (.irq false)
  doFlashCmd
  order (.irq true)
  let status ← read ftflFstat
  if status &&& fstatErrors ≠ 0 then set ftflFstat (status &&& fstatErrors)
  else waitReady 200000

/-- `EEPROM_init` -/
def init : Flash Unit := do
  let config ← read ftflFcnfg
  if config &&& ramrdy ≠ 0 then partitionFlash else waitReady 200000

/-- `flexram_wait` -/
def flexramWait : Flash Unit := await ftflFcnfg fun config => config &&& eeerdy ≠ 0

/-- `if (!(FTFL_FCNFG & FTFL_FCNFG_EEERDY)) EEPROM_init();` -/
def ensureReady : Flash Unit := do
  let config ← read ftflFcnfg
  if config &&& eeerdy = 0 then init else pure ()

/-- The accesses of a unit, with what is done around a store. -/
def perform : List Access → Flash Unit
  | [] => pure ()
  | .load width offset word :: as => do
    order (.access (.load width offset word))
    perform as
  | .store width offset word :: as => do
    clearErrors
    order (.access (.store width offset word))
    flexramWait
    perform as

/-- The loop of `EEPROM_write`, for at most `n` turns. -/
def writeLoop : ℕ → WriteState → Flash WriteState
  | 0, s => if s.size = 0 then pure s else fail
  | n + 1, s =>
    if s.size = 0 then pure s
    else match EEPROM.writeTurn s with
      | none => fail
      | some (t, as) => do
        perform as
        writeLoop n t

/-- `EEPROM_write`, with the FlexRAM behind it. -/
def write (ram : FlexRam) (_dest : UInt16) (buf : List UInt8) (size : UInt16) : Flash FlexRam :=
  let offset : UInt32 := size.toUInt32
  if 2048 ≤ offset then pure ram
  else do
    ensureReady
    let size : UInt16 := if 2048 ≤ size then 2048 else size
    let size : UInt16 := if 2048 ≤ offset + size.toUInt32 then (2048 - offset).toUInt16 else size
    let s ← writeLoop size.toNat ⟨ram, offset, size, buf⟩
    pure s.ram

/-! ## The accesses -/

/-- The event is no access to the FlexRAM. -/
def NoAccess : FlashEvent → Prop
  | .told (.access _) => False
  | _ => True

/-- The access that the event is. -/
def access? : FlashEvent → Option Access
  | .told (.access a) => some a
  | _ => none

/-- The accesses to the FlexRAM in a run. -/
def accesses (es : List FlashEvent) : List Access := es.filterMap access?

/-- A monitor that is told which accesses to expect. -/
def expects : List Access → FlashEvent → Option (List Access)
  | as, .asked _ _ => some as
  | as, .told (.set _ _) => some as
  | as, .told (.irq _) => some as
  | a :: as, .told (.access b) => if a = b then some as else none
  | [], .told (.access _) => none

section Silent

theorem clearErrors_emits : Emits NoAccess clearErrors := by
  refine emits_read.mpr fun status => ⟨trivial, ?_⟩
  split_ifs
  · exact ⟨trivial, trivial⟩
  · trivial

theorem doFlashCmd_emits : Emits NoAccess doFlashCmd := ⟨trivial, fun _ => ⟨trivial, trivial⟩⟩

theorem waitReady_emits (left : ℕ) : Emits NoAccess (waitReady left) := by
  induction left with
  | zero => exact fun _ => ⟨trivial, trivial⟩
  | succ left ih =>
    refine emits_read.mpr fun config => ⟨trivial, ?_⟩
    split_ifs
    · trivial
    · exact ih

theorem partitionFlash_emits : Emits NoAccess partitionFlash := by
  have hset : ∀ register value, Emits NoAccess (set register value) :=
    fun _ _ => ⟨trivial, trivial⟩
  have hirq : ∀ enabled, Emits NoAccess (order (.irq enabled) : Flash Unit) :=
    fun _ => ⟨trivial, trivial⟩
  refine clearErrors_emits.bind fun _ => (hset _ _).bind fun _ => (hset _ _).bind fun _ =>
    (hset _ _).bind fun _ => (hset _ _).bind fun _ => (hirq _).bind fun _ =>
    doFlashCmd_emits.bind fun _ => (hirq _).bind fun _ => ?_
  refine emits_read.mpr fun status => ⟨trivial, ?_⟩
  split_ifs
  · exact hset _ _
  · exact waitReady_emits _

theorem init_emits : Emits NoAccess init := by
  refine emits_read.mpr fun config => ⟨trivial, ?_⟩
  split_ifs
  · exact partitionFlash_emits
  · exact waitReady_emits _

theorem ensureReady_emits : Emits NoAccess ensureReady := by
  refine emits_read.mpr fun config => ⟨trivial, ?_⟩
  split_ifs
  · exact init_emits
  · trivial

end Silent

section Accesses

variable {as rest : List Access} {es : List FlashEvent} {α : Type} {p : Flash α}

/-- What accesses nothing leaves what is expected. -/
theorem wp_expects_silent (h : Emits NoAccess p) :
    wp expects p (fun _ m => m = as) as := by
  refine wp_frame h ?_ rfl
  rintro m e rfl he
  rcases e with ⟨q, a⟩ | (_ | _ | a)
  · exact ⟨m, by cases m <;> rfl, rfl⟩
  · exact ⟨m, by cases m <;> rfl, rfl⟩
  · exact ⟨m, by cases m <;> rfl, rfl⟩
  · exact he.elim

theorem wp_expects_access (a : Access) {f : Unit → Flash α} {R : α → List Access → Prop}
    (h : wp expects (f ()) R rest) :
    wp expects (order (.access a) >>= f) R (a :: rest) := wp_order.mpr ⟨rest, if_pos rfl, h⟩

theorem perform_expects (as rest : List Access) :
    wp expects (perform as) (fun _ m => m = rest) (as ++ rest) := by
  induction as with
  | nil => exact (rfl : rest = rest)
  | cons a as ih =>
    have hwait : Emits NoAccess flexramWait := fun _ => ⟨trivial, trivial⟩
    cases a with
    | load width offset word => exact wp_expects_access _ ih
    | store width offset word =>
      refine wp_seq (wp_expects_silent clearErrors_emits) ?_
      rintro - m rfl
      refine wp_expects_access _ (wp_seq (wp_expects_silent hwait) ?_)
      rintro - m rfl
      exact ih

/-- The loop makes the accesses of the loop without the controller. -/
theorem writeLoop_expects {n : ℕ} {s t : WriteState} (h : EEPROM.writeLoop n s = some (t, as))
    (rest : List Access) :
    wp expects (writeLoop n s) (fun t' m => t' = t ∧ m = rest) (as ++ rest) := by
  induction n generalizing s as with
  | zero =>
    rw [EEPROM.writeLoop] at h
    rw [writeLoop]
    split_ifs at h with h0
    obtain ⟨rfl, rfl⟩ := Prod.mk.inj (Option.some_inj.mp h)
    rw [if_pos h0]
    exact ⟨rfl, rfl⟩
  | succ n ih =>
    rw [EEPROM.writeLoop] at h
    rw [writeLoop]
    split_ifs at h with h0
    · obtain ⟨rfl, rfl⟩ := Prod.mk.inj (Option.some_inj.mp h)
      rw [if_pos h0]
      exact ⟨rfl, rfl⟩
    · rw [if_neg h0]
      obtain ⟨⟨s₁, as₁⟩, hturn, hrest⟩ := Option.bind_eq_some_iff.mp h
      obtain ⟨⟨s₂, as₂⟩, hloop, he⟩ := Option.map_eq_some_iff.mp hrest
      obtain ⟨rfl, rfl⟩ := Prod.mk.inj he
      simp only [hturn]
      rw [List.append_assoc]
      refine wp_seq (perform_expects as₁ (as₂ ++ rest)) ?_
      rintro - m rfl
      exact ih hloop

/-- A monitor that does not object has seen the front of what it expected. -/
theorem watched_expects {m : List Access} (h : watched expects as es = some m) :
    as = accesses es ++ m := by
  induction es generalizing as with
  | nil => exact Option.some_inj.mp h
  | cons e es ih =>
    rw [watched] at h
    rcases e with ⟨q, v⟩ | (⟨r, v⟩ | b | a)
    · have hw : expects as (.asked q v) = some as := by cases as <;> rfl
      rw [hw] at h
      exact ih h
    · have hw : expects as (.told (.set r v)) = some as := by cases as <;> rfl
      rw [hw] at h
      exact ih h
    · have hw : expects as (.told (.irq b)) = some as := by cases as <;> rfl
      rw [hw] at h
      exact ih h
    · cases as with
      | nil => cases h
      | cons b as =>
        rw [expects] at h
        split_ifs at h with hab
        · rw [hab, ih h]
          rfl
        · cases h

end Accesses

/-! ## Nothing stands in the way -/

section Live

theorem clearErrors_live : Live clearErrors := by
  refine live_read.mpr fun status => ?_
  split_ifs <;> trivial

theorem waitReady_live (left : ℕ) : Live (waitReady left) := by
  induction left with
  | zero => exact fun _ => trivial
  | succ left ih =>
    refine live_read.mpr fun config => ?_
    split_ifs
    · trivial
    · exact ih

theorem doFlashCmd_live : Live doFlashCmd := ⟨⟨ccif, rfl⟩, fun _ _ => trivial⟩

theorem partitionFlash_live : Live partitionFlash := by
  have hset : ∀ register value, Live (set register value) := fun _ _ => trivial
  have hirq : ∀ enabled, Live (order (.irq enabled) : Flash Unit) := fun _ => trivial
  refine clearErrors_live.bind fun _ => (hset _ _).bind fun _ => (hset _ _).bind fun _ =>
    (hset _ _).bind fun _ => (hset _ _).bind fun _ => (hirq _).bind fun _ =>
    doFlashCmd_live.bind fun _ => (hirq _).bind fun _ => ?_
  refine live_read.mpr fun status => ?_
  split_ifs
  · exact hset _ _
  · exact waitReady_live _

theorem init_live : Live init := by
  refine live_read.mpr fun config => ?_
  split_ifs
  · exact partitionFlash_live
  · exact waitReady_live _

theorem ensureReady_live : Live ensureReady := by
  refine live_read.mpr fun config => ?_
  split_ifs
  · exact init_live
  · trivial

theorem perform_live (as : List Access) : Live (perform as) := by
  have hwait : Live flexramWait := ⟨⟨eeerdy, rfl⟩, fun _ _ => trivial⟩
  induction as with
  | nil => trivial
  | cons a as ih =>
    cases a with
    | load width offset word => exact ih
    | store width offset word =>
      refine clearErrors_live.bind fun _ => ?_
      exact hwait.bind fun _ => ih

theorem writeLoop_live {n : ℕ} {s t : WriteState} {as : List Access}
    (h : EEPROM.writeLoop n s = some (t, as)) : Live (writeLoop n s) := by
  induction n generalizing s as with
  | zero =>
    rw [EEPROM.writeLoop] at h
    rw [writeLoop]
    split_ifs at h with h0
    rw [if_pos h0]
    trivial
  | succ n ih =>
    rw [EEPROM.writeLoop] at h
    rw [writeLoop]
    split_ifs at h with h0
    · rw [if_pos h0]
      trivial
    · rw [if_neg h0]
      obtain ⟨⟨s₁, as₁⟩, hturn, hrest⟩ := Option.bind_eq_some_iff.mp h
      obtain ⟨⟨s₂, as₂⟩, hloop, he⟩ := Option.map_eq_some_iff.mp hrest
      obtain ⟨rfl, -⟩ := Prod.mk.inj he
      simp only [hturn]
      exact (perform_live as₁).bind fun _ => ih hloop

end Live

/-! ## Writing with the controller -/

section Write

variable {ram ram' : FlexRam} {dest size : UInt16} {buf : List UInt8} {as : List Access}

/-- `EEPROM_write` is its loop behind the clipping, once the controller was asked. -/
theorem write_cases (h : EEPROM.write ram dest buf size = some (ram', as)) :
    (write ram dest buf size = pure ram' ∧ as = []) ∨
      ∃ n s t, EEPROM.writeLoop n s = some (t, as) ∧ ram' = t.ram ∧
        write ram dest buf size = ensureReady >>= fun _ => writeLoop n s >>= fun s => pure s.ram := by
  rw [EEPROM.write_clips] at h
  rw [write]
  split_ifs at h with hend
  · obtain ⟨rfl, rfl⟩ := Prod.mk.inj (Option.some_inj.mp h)
    exact Or.inl ⟨if_pos hend, rfl⟩
  · obtain ⟨⟨t, as'⟩, hloop, he⟩ := Option.map_eq_some_iff.mp h
    obtain ⟨rfl, rfl⟩ := Prod.mk.inj he
    exact Or.inr ⟨_, _, t, hloop, rfl, if_neg hend⟩

/-- The call makes the accesses of the call without the controller. -/
theorem write_expects (h : EEPROM.write ram dest buf size = some (ram', as)) (rest : List Access) :
    wp expects (write ram dest buf size) (fun r m => r = ram' ∧ m = rest) (as ++ rest) := by
  rcases write_cases h with ⟨hw, rfl⟩ | ⟨n, s, t, hloop, rfl, hw⟩
  · rw [hw]
    exact ⟨rfl, rfl⟩
  · rw [hw]
    refine wp_seq (wp_expects_silent ensureReady_emits) ?_
    rintro - m rfl
    refine wp_seq (writeLoop_expects hloop rest) ?_
    rintro t' m ⟨rfl, rfl⟩
    exact ⟨rfl, rfl⟩

theorem write_live (h : EEPROM.write ram dest buf size = some (ram', as)) :
    Live (write ram dest buf size) := by
  rcases write_cases h with ⟨hw, -⟩ | ⟨n, s, t, hloop, -, hw⟩
  · rw [hw]
    trivial
  · rw [hw]
    exact ensureReady_live.bind fun _ => (writeLoop_live hloop).bind fun _ => trivial

/-- **Whatever the controller says**, `EEPROM_write` of `size` bytes that are there makes the accesses
of the write to the plain FlexRAM, in their order, and leaves the FlexRAM as that does when it ends;
and it can always end. -/
theorem write_refines (ram : FlexRam) (dest : UInt16) (h : size.toNat ≤ buf.length) :
    ∃ ram' as, EEPROM.write ram dest buf size = some (ram', as) ∧
      ∀ es p, Leads (write ram dest buf size) es p → accesses es <+: as ∧
        (∀ r, p = ret r → r = ram' ∧ accesses es = as) ∧
        ∃ es' r, Leads (write ram dest buf size) (es ++ es') (ret r) := by
  obtain ⟨as, hwrite⟩ := EEPROM.write_eq ram dest h
  refine ⟨_, as, hwrite, fun es p hrun => ?_⟩
  have hwp := write_expects hwrite []
  rw [List.append_nil] at hwp
  obtain ⟨m, hm, hp⟩ := wp_sound hwp hrun
  have hseen := watched_expects hm
  refine ⟨⟨m, hseen.symm⟩, ?_, (write_live hwrite).goes_on hrun⟩
  rintro r rfl
  obtain ⟨hr, rfl⟩ := hp
  exact ⟨hr, by rw [hseen, List.append_nil]⟩

/-- A run with two bytes, which are a word for the cells from 2 on: the controller is busy after its
store, and then ready. -/
def busyRun : List FlashEvent :=
  [.asked ftflFcnfg 0x01, .told (.access (.load 2 2 0)), .asked ftflFstat 0,
    .told (.access (.store 2 2 0x3412)), .asked ftflFcnfg 0, .asked ftflFcnfg 0x01]

theorem busyRun_leads : ∃ ram', Leads (write (fun _ => 0) 0 [0x12, 0x34] 2) busyRun (ret ram') ∧
    ram' ⟨2, by decide⟩ = 0x12 ∧ ram' ⟨3, by decide⟩ = 0x34 := by
  have hrun : ((Run.run step (write (fun _ => 0) 0 [0x12, 0x34] 2) busyRun).bind
      fun r => r.1.result?).map (fun ram => (ram ⟨2, by decide⟩, ram ⟨3, by decide⟩)) =
        some (0x12, 0x34) := by decide +kernel
  obtain ⟨ram', hleads, hcells⟩ := leads_result hrun
  exact ⟨ram', hleads, Prod.mk.inj hcells⟩

/-- The word is stored, and read as two bytes. -/
theorem write_refines_two : ∃ ram',
    Leads (write (fun _ => 0) 0 [0x12, 0x34] 2) busyRun (ret ram') ∧
    EEPROM.write (fun _ => 0) 0 [0x12, 0x34] 2 = some (ram', [.load 2 2 0, .store 2 2 0x3412]) ∧
    ram' ⟨2, by decide⟩ = 0x12 ∧ ram' ⟨3, by decide⟩ = 0x34 := by
  have hsize : (2 : UInt16).toNat ≤ [(0x12 : UInt8), 0x34].length := Nat.le_refl 2
  obtain ⟨r, hleads, hcells⟩ := busyRun_leads
  obtain ⟨ram', as, hwrite, hall⟩ := write_refines (fun _ => 0) 0 hsize
  obtain ⟨rfl, hacc⟩ := (hall _ _ hleads).2.1 r rfl
  rw [← hacc] at hwrite
  exact ⟨r, hleads, hwrite, hcells⟩

end Write

end Flash

end Ulisse
