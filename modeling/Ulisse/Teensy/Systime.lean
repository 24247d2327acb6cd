import Ulisse.Teensy.Startup

/-!
# Teensy.Systime — the clock of the test firmware

`digio_test.c`: `main` sets up the clock once more, with other parameters and the light on pin 13 on
while it waits, and then the serial ports.  The firmware is the startup with this `main`; its clock
is never touched too early either, `main` goes through all of its steps again, and it has the light
on at every look at the status but those for the lock of the PLL (`firmware_clock`).
-/

namespace Ulisse

open Device Prog

namespace Boot

/-- `SIM_SCGC4` -/
def simScgc4 : UInt32 := 0x40048034

/-- `PORTC_PCR5` -/
def portcPcr5 : UInt32 := 0x4004B014

/-- `USB0_OTGISTAT` -/
def usb0Otgistat : UInt32 := 0x40072010

/-- `USB0_ISTAT` -/
def usb0Istat : UInt32 := 0x40072080

/-- `USB0_INTEN` -/
def usb0Inten : UInt32 := 0x40072084

/-- `USB0_ERRSTAT` -/
def usb0Errstat : UInt32 := 0x40072088

/-- `USB0_CTL` -/
def usb0Ctl : UInt32 := 0x40072094

/-- `USB0_USBCTRL` -/
def usb0Usbctrl : UInt32 := 0x40072100

/-- `USB0_CONTROL` -/
def usb0Control : UInt32 := 0x40072108

/-- `ledToggle` -/
def ledToggle (state : UInt8) : Code Unit := order (.digIo (.setValue 13 state))

/-- A wait with the light on. -/
def waitLit (good : UInt32 → Bool) : Code Unit := do
  ledToggle 1
  await mcgS good
  ledToggle 0

/-- `systime_init` -/
def systimeInit : Code Unit := do
  set osc0Cr (0x01 ||| 0x02)
  set mcgC2 (range0 1 ||| 0x08 ||| erefs)
  set mcgC1 (clks 2 ||| frdiv 3)
  waitLit fun s => s &&& oscinit0 ≠ 0
  waitLit fun s => s &&& irefst = 0
  waitLit fun s => (s &&& clkstMask) >>> 2 = 0x2
  set mcgC5 1
  set mcgC6 (0x20 ||| plls)
  waitLit fun s => s &&& pllst ≠ 0
  await mcgS fun s => s &&& lock0 ≠ 0
  set simClkdiv1 (outdivs 0 1 1 3)
  let c1 ← read mcgC1
  set mcgC1 (c1.toUInt8 &&& ~~~0xC0).toUInt32
  waitLit fun s => (s &&& clkstMask) >>> 2 = 0x3
  let clkdiv2 ← read simClkdiv2
  set simClkdiv2 (clkdiv2 ||| usbdiv 1)

/-- `_usb_init` -/
def usbInit : Code Unit := do
  let scgc4 ← read simScgc4
  set simScgc4 (scgc4 ||| 0x00040000)
  set usb0Istat 0xFF
  set usb0Errstat 0xFF
  set usb0Otgistat 0xFF
  set usb0Ctl 0x01
  set usb0Usbctrl 0
  set usb0Inten 0x01
  set usb0Control 0x10

/-- `main` of `digio_test.c` -/
def digioTest : Code Unit := do
  let pcr ← read portcPcr5
  set portcPcr5 (pcr ||| (0x04 ||| 0x40 ||| 0x100))
  order (.digIo (.setDirection 13 1))
  ledToggle 1
  systimeInit
  usbInit
  order (.uartInit 115200)
  ledToggle 0

/-- `ResetHandler`, with what `main` is; it never returns, but nothing is done any more. -/
def resetHandler (l : Layout) (mem : Memory) (main : Code Unit) : Code Unit := do
  let _ ← startup l mem
  order .main
  main

section Firmware

variable {c c' : Clock} {stage : ClockStage} {α : Type} {R : α → Clock → Prop}

/-- The clock status is the same before and after it is shifted. -/
theorem clkst_shift (s : UInt32) {n status : UInt32} (h : status.toNat = 4 * n.toNat) :
    (s &&& clkstMask) >>> 2 = n ↔ s &&& clkstMask = status := by
  have hlow : (s &&& clkstMask).toNat % 4 = 0 := by
    have hmask : clkstMask &&& 3 = 0 := by decide
    have hand : (s &&& clkstMask) &&& 3 = 0 := by rw [UInt32.and_assoc, hmask, UInt32.and_zero]
    rw [← Nat.and_two_pow_sub_one_eq_mod _ 2]
    exact congrArg UInt32.toNat hand
  have hshift : ((s &&& clkstMask) >>> 2).toNat = (s &&& clkstMask).toNat / 4 := by
    rw [UInt32.toNat_shiftRight, Nat.shiftRight_eq_div_pow]
    rfl
  rw [← UInt32.toNat_inj, ← UInt32.toNat_inj, hshift]
  omega

/-- A wait with the light on that ends with the next stage. -/
theorem wp_waitLit (stage : ClockStage) {good : UInt32 → Bool} {f : Unit → Code α}
    (hc : c.stage ≠ .pllSelected)
    (hlook : ∀ s, c.stage.look s = if good s then stage else c.stage)
    (hf : wp watchClock (f ()) R ⟨stage, some false⟩) :
    wp watchClock (waitLit good >>= f) R c := by
  have hlit : Clock.Lit ⟨c.stage, some true⟩ := Or.inr (congrArg some (decide_eq_true hc).symm)
  have hwait : wp watchClock (waitLit good) (fun _ c' => c' = ⟨stage, some false⟩) c := by
    refine wp_order.mpr ⟨⟨c.stage, some true⟩, rfl, ?_⟩
    refine wp_look _ hlit hlook ?_
    exact ⟨⟨stage, some false⟩, rfl, rfl⟩
  refine wp_seq hwait ?_
  rintro - c' rfl
  exact hf

/-- **The clock is set up again** step by step. -/
theorem systimeInit_clock (led : Option Bool) :
    wp watchClock systimeInit (fun _ c => c = ⟨.running, some false⟩) ⟨.entered, led⟩ := by
  have hext : ∀ s : UInt32, decide ((s &&& clkstMask) >>> 2 = 0x2) =
      decide (s &&& clkstMask = clkst 2) := fun s => decide_eq_decide.mpr (clkst_shift s rfl)
  have hpll : ∀ s : UInt32, decide ((s &&& clkstMask) >>> 2 = 0x3) =
      decide (s &&& clkstMask = clkst 3) := fun s => decide_eq_decide.mpr (clkst_shift s rfl)
  have hclks : ∀ c1 : UInt32, (c1.toUInt8 &&& ~~~0xC0).toUInt32 &&& clks 3 = clks 0 := by
    intro c1
    rw [show clks 3 = (0xC0 : UInt8).toUInt32 from rfl, ← UInt8.toUInt32_and, UInt8.and_assoc,
      show (~~~0xC0 &&& 0xC0 : UInt8) = 0 from rfl, UInt8.and_zero]
    rfl
  refine wp_set rfl (wp_set rfl (wp_set rfl ?_))
  have hexternal : ClockStage.external ≠ .pllSelected := by decide
  refine wp_waitLit .oscillating hexternal (fun s => by simp [ClockStage.look]) ?_
  refine wp_waitLit .referenced (by decide) (fun s => by simp [ClockStage.look]) ?_
  refine wp_waitLit .bypassed (by decide)
    (fun s => by simp only [hext]; simp [ClockStage.look]) ?_
  refine wp_set rfl (wp_set rfl ?_)
  refine wp_waitLit .pllSelected (by decide) (fun s => by simp [ClockStage.look]) ?_
  refine wp_look .locked (Or.inr rfl) (fun s => by simp [ClockStage.look]) ?_
  refine wp_set rfl (wp_read.mpr fun c1 => ⟨_, rfl, ?_⟩)
  have hset : Clock.set ⟨.divided, some false⟩ mcgC1 (c1.toUInt8 &&& ~~~0xC0).toUInt32 =
      some ⟨.engaged, some false⟩ := by
    have hne : ¬ (clks 0 = clks 2 ∧ Clock.MayStart ⟨.divided, some false⟩) := by decide
    rw [Clock.set, if_neg (by decide), if_pos rfl, hclks c1, if_neg hne, if_pos ⟨rfl, rfl⟩]
  refine wp_set hset ?_
  refine wp_waitLit .running (by decide)
    (fun s => by simp only [hpll]; simp [ClockStage.look]) ?_
  exact wp_read.mpr fun clkdiv2 => ⟨_, rfl, _, rfl, rfl⟩

theorem usbInit_noClock : Emits NoClock usbInit := by
  have hset : ∀ register value, register ∉ [osc0Cr, mcgC1, mcgC2, mcgC5, mcgC6, simClkdiv1] →
      Emits NoClock (set register value) := fun _ _ h => ⟨h, trivial⟩
  refine emits_read.mpr fun scgc4 => ⟨show simScgc4 ≠ mcgS by decide, ?_⟩
  exact (hset _ _ (by decide)).bind fun _ => (hset _ _ (by decide)).bind fun _ =>
    (hset _ _ (by decide)).bind fun _ => (hset _ _ (by decide)).bind fun _ =>
    (hset _ _ (by decide)).bind fun _ => (hset _ _ (by decide)).bind fun _ =>
    (hset _ _ (by decide)).bind fun _ => hset _ _ (by decide)

theorem digioTest_clock (led : Option Bool) :
    wp watchClock digioTest (fun _ c => c = ⟨.running, some false⟩) ⟨.entered, led⟩ := by
  refine wp_read.mpr fun pcr => ⟨_, rfl, wp_set rfl ?_⟩
  refine wp_order.mpr ⟨_, rfl, wp_order.mpr ⟨_, rfl, wp_seq (systimeInit_clock _) ?_⟩⟩
  rintro - c rfl
  refine wp_seq (wp_noClock usbInit_noClock) ?_
  rintro - c rfl
  exact wp_order.mpr ⟨_, rfl, _, rfl, rfl⟩

theorem waitLit_live {good : UInt32 → Bool} (h : ∃ s, good s = true) : Live (waitLit good) :=
  ⟨h, fun _ _ => trivial⟩

theorem systimeInit_live : Live systimeInit := by
  have hsets : ∀ (r r' v v' : UInt32), Live (set r v >>= fun _ => set r' v') :=
    fun _ _ _ _ => trivial
  refine (waitLit_live ⟨oscinit0, rfl⟩).bind fun _ => (waitLit_live ⟨0, rfl⟩).bind fun _ =>
    (waitLit_live ⟨clkst 2, rfl⟩).bind fun _ => ?_
  refine (hsets mcgC5 mcgC6 1 _).bind fun _ => (waitLit_live ⟨pllst, rfl⟩).bind fun _ => ?_
  exact ⟨⟨lock0, rfl⟩, fun _ _ _ => (waitLit_live ⟨clkst 3, rfl⟩).bind fun _ _ => trivial⟩

/-- **The clock of the firmware**: in every run from the reset, whatever the registers answer, no
step of the clock is taken before the one before it was seen in the status, neither by the startup
nor by `main`; `main` is called only when the core is clocked by the locked PLL, and has switched the
light on before every look that it takes at the status but those for the lock.  Where it ends it has
taken each of the steps once more (from `entered` the way to `running` is all of them), and the light
is off; and it can always get there. -/
theorem firmware_clock {l : Layout} {mem : Memory} {es : List BootEvent} {p : Code Unit}
    (hrun : Leads (resetHandler l mem digioTest) es p) :
    (watched watchClock ⟨.reset, none⟩ es).isSome ∧
    (p = ret () → watched watchClock ⟨.reset, none⟩ es = some ⟨.running, some false⟩) ∧
    ∃ es', Leads (resetHandler l mem digioTest) (es ++ es') (ret ()) := by
  obtain ⟨mem', hinit, -⟩ := initMemory_initialised l mem
  have hwp : wp watchClock (resetHandler l mem digioTest)
      (fun _ c => c = ⟨.running, some false⟩) ⟨.reset, none⟩ := by
    refine wp_seq (startup_clock hinit) ?_
    rintro - c ⟨-, rfl⟩
    exact wp_order.mpr ⟨_, rfl, digioTest_clock (some false)⟩
  have husb : Live usbInit := fun _ => trivial
  have hlive : Live (resetHandler l mem digioTest) := by
    refine (startup_live hinit).bind fun _ _ => ?_
    exact systimeInit_live.bind fun _ => husb.bind fun _ => trivial
  obtain ⟨c, hc, hp⟩ := wp_sound hwp hrun
  refine ⟨Option.isSome_iff_exists.mpr ⟨c, hc⟩, ?_, ?_⟩
  · rintro rfl
    rw [hc, hp]
  · obtain ⟨es', _, hend⟩ := hlive.goes_on hrun
    exact ⟨es', hend⟩

/-- A run of the whole firmware. -/
theorem firmware_clock_small : ∃ es,
    Leads (resetHandler smallLayout (fun _ => 7) digioTest) es (ret ()) ∧
    watched watchClock ⟨.reset, none⟩ es = some ⟨.running, some false⟩ := by
  obtain ⟨-, -, es, hrun⟩ :=
    firmware_clock (Leads.refl (resetHandler smallLayout (fun _ => 7) digioTest))
  exact ⟨es, hrun, (firmware_clock hrun).2.1 rfl⟩

end Firmware

end Boot

end Ulisse
