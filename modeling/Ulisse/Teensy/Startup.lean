import Ulisse.Lib.Device
import Ulisse.Teensy.DigIo

/-!
# Teensy.Startup — from the reset to `main`

`ResetHandler` of the core, as the makefile builds it: for the MK20DX256 at 96 MHz, without the
Arduino parts.  It makes the memory that C code expects: the initialised data are copied from the
flash, the rest is zeroed, and the vectors are copied to the RAM, while nothing else is written
(`initMemory_initialised`).  It starts the clock step by step, and looks at the status of each step
before it takes the next one.  A monitor of the clock objects to a step that is taken too early:
whatever the registers answer it never does, and `main` is called with the core clocked by the PLL
(`startup_ready`).
-/

namespace Ulisse

open Device Prog Run

namespace Boot

/-! ## The memory -/

/-- The words of the memory, by their addresses. -/
abbrev Memory := ℕ → UInt32

/-- `NVIC_NUM_INTERRUPTS` -/
def numInterrupts : ℕ := 95

/-- The words of a vector table; the one in the flash is at the address 0. -/
def vectorsNum : ℕ := numInterrupts + 16

/-- Where the linker puts the sections: the vectors and the code in the flash, the initial data
behind them, and in the RAM the vectors, the data and what is zero at first. -/
structure Layout where
  etext : ℕ
  vectorsRam : ℕ
  sdata : ℕ
  dataWords : ℕ
  sbss : ℕ
  bssWords : ℕ
  flash : 4 * vectorsNum ≤ etext
  ram : etext + 4 * dataWords ≤ vectorsRam
  vectors : vectorsRam + 4 * vectorsNum ≤ sdata
  data : sdata + 4 * dataWords ≤ sbss

def Layout.edata (l : Layout) : ℕ := l.sdata + 4 * l.dataWords

def Layout.ebss (l : Layout) : ℕ := l.sbss + 4 * l.bssWords

/-- `while (dest < stop) *dest++ = …;` for at most `n` turns, with a source that goes along. -/
def fill (stop : ℕ) (word : Memory → ℕ → UInt32) : ℕ → Memory → ℕ → ℕ → Option Memory
  | 0, mem, dest, _ => if dest < stop then none else some mem
  | n + 1, mem, dest, src =>
    if dest < stop then
      fill stop word n (Function.update mem dest (word mem src)) (dest + 4) (src + 4)
    else some mem

/-- `while (dest < &_edata) *dest++ = *src++;` -/
def copyData (l : Layout) (mem : Memory) : Option Memory :=
  fill l.edata (fun mem src => mem src) (l.edata - l.sdata) mem l.sdata l.etext

/-- `while (dest < &_ebss) *dest++ = 0;` -/
def zeroBss (l : Layout) (mem : Memory) : Option Memory :=
  fill l.ebss (fun _ _ => 0) (l.ebss - l.sbss) mem l.sbss 0

/-- `for (i=0; i < NVIC_NUM_INTERRUPTS + 16; i++) _VectorsRam[i] = _VectorsFlash[i];` -/
def copyVectors (l : Layout) (mem : Memory) : Memory :=
  (List.range vectorsNum).foldl
    (fun mem i => Function.update mem (l.vectorsRam + 4 * i) (mem (4 * i))) mem

/-- The memory part of `ResetHandler`. -/
def initMemory (l : Layout) (mem : Memory) : Option Memory :=
  (copyData l mem).bind fun mem => (zeroBss l mem).map fun mem => copyVectors l mem

/-- `k` words from `dest` on are those of `f`, and the others are as they were. -/
structure Filled (mem mem' : Memory) (dest k : ℕ) (f : ℕ → UInt32) : Prop where
  inside : ∀ i, i < k → mem' (dest + 4 * i) = f i
  outside : ∀ a, (∀ i, i < k → a ≠ dest + 4 * i) → mem' a = mem a

/-- The memory that C code expects, made from `mem`. -/
structure Initialised (l : Layout) (mem mem' : Memory) : Prop where
  data : ∀ i, i < l.dataWords → mem' (l.sdata + 4 * i) = mem (l.etext + 4 * i)
  bss : ∀ i, i < l.bssWords → mem' (l.sbss + 4 * i) = 0
  vectors : ∀ i, i < vectorsNum → mem' (l.vectorsRam + 4 * i) = mem (4 * i)
  others : ∀ a, a < l.vectorsRam ∨ l.vectorsRam + 4 * vectorsNum ≤ a ∧ a < l.sdata ∨
    l.edata ≤ a ∧ a < l.sbss ∨ l.ebss ≤ a → mem' a = mem a

section Memory

variable {mem mem' : Memory} {dest k n : ℕ} {f : ℕ → UInt32}

theorem filled_zero (mem : Memory) (dest : ℕ) (f : ℕ → UInt32) : Filled mem mem dest 0 f :=
  ⟨fun i hi => absurd hi (Nat.not_lt_zero i), fun _ _ => rfl⟩

/-- A word more in front. -/
theorem Filled.cons (h : Filled (Function.update mem dest (f 0)) mem' (dest + 4) k
    fun i => f (i + 1)) : Filled mem mem' dest (k + 1) f := by
  obtain ⟨hin, hout⟩ := h
  refine ⟨fun i hi => ?_, fun a ha => ?_⟩
  · cases i with
    | zero =>
      rw [hout _ fun i _ => by omega]
      exact Function.update_self _ _ _
    | succ i =>
      rw [show dest + 4 * (i + 1) = dest + 4 + 4 * i by omega]
      exact hin i (Nat.lt_of_succ_lt_succ hi)
  · have hdest : a ≠ dest := ha 0 (Nat.succ_pos k)
    rw [hout a fun i hi => ?_, Function.update_of_ne hdest]
    have hne := ha (i + 1) (Nat.succ_lt_succ hi)
    omega

/-- A word more behind. -/
theorem Filled.concat (h : Filled mem mem' dest k f) :
    Filled mem (Function.update mem' (dest + 4 * k) (f k)) dest (k + 1) f := by
  obtain ⟨hin, hout⟩ := h
  refine ⟨fun i hi => ?_, fun a ha => ?_⟩
  · by_cases hik : i = k
    · subst hik
      exact Function.update_self _ _ _
    · rw [Function.update_of_ne (by omega)]
      exact hin i (by omega)
  · rw [Function.update_of_ne (ha k (Nat.lt_succ_self k))]
    exact hout a fun i hi => ha i (Nat.lt_succ_of_lt hi)

/-- **The loop** ends, and has written the words of its sources if it does not write to these. -/
theorem fill_filled (mem : Memory) (dest src : ℕ) (word : Memory → ℕ → UInt32) (hn : k ≤ n)
    (hword : ∀ (m : Memory) (v : UInt32) i j, i < k → j < k →
      word (Function.update m (dest + 4 * i) v) (src + 4 * j) = word m (src + 4 * j)) :
    ∃ mem', fill (dest + 4 * k) word n mem dest src = some mem' ∧
      Filled mem mem' dest k fun i => word mem (src + 4 * i) := by
  induction k generalizing n mem dest src with
  | zero =>
    refine ⟨mem, ?_, filled_zero _ _ _⟩
    cases n <;> rw [fill, if_neg (by omega)]
  | succ k ih =>
    obtain ⟨n, rfl⟩ : ∃ m, n = m + 1 := ⟨n - 1, by omega⟩
    have hnext : ∀ (m : Memory) (v : UInt32) i j, i < k → j < k →
        word (Function.update m (dest + 4 + 4 * i) v) (src + 4 + 4 * j) =
          word m (src + 4 + 4 * j) := by
      intro m v i j hi hj
      have h := hword m v (i + 1) (j + 1) (Nat.succ_lt_succ hi) (Nat.succ_lt_succ hj)
      rwa [show dest + 4 * (i + 1) = dest + 4 + 4 * i by omega,
        show src + 4 * (j + 1) = src + 4 + 4 * j by omega] at h
    obtain ⟨mem', hfill, hfilled⟩ :=
      ih (Function.update mem dest (word mem src)) (dest + 4) (src + 4)
        (Nat.succ_le_succ_iff.mp hn) hnext
    refine ⟨mem', ?_, ?_⟩
    · rw [fill, if_pos (by omega), show dest + 4 * (k + 1) = dest + 4 + 4 * k by omega]
      exact hfill
    · apply Filled.cons
      refine ⟨fun i hi => ?_, hfilled.outside⟩
      have hsrc : src + 4 + 4 * i = src + 4 * (i + 1) := by omega
      rw [hfilled.inside i hi, hsrc]
      exact hword mem (word mem src) 0 (i + 1) (Nat.succ_pos k) (Nat.succ_lt_succ hi)

/-- **What `ResetHandler` makes of the memory**. -/
theorem initMemory_initialised (l : Layout) (mem : Memory) :
    ∃ mem', initMemory l mem = some mem' ∧ Initialised l mem mem' := by
  have hflash := l.flash
  have hram := l.ram
  have hvectors := l.vectors
  have hdata := l.data
  have hedata : l.edata = l.sdata + 4 * l.dataWords := rfl
  have hebss : l.ebss = l.sbss + 4 * l.bssWords := rfl
  obtain ⟨mem₁, hcopy, hin₁, hout₁⟩ := fill_filled mem l.sdata l.etext (fun mem src => mem src)
    (show l.dataWords ≤ l.edata - l.sdata by omega)
    fun m v i j hi hj => Function.update_of_ne (by omega) _ _
  obtain ⟨mem₂, hzero, hin₂, hout₂⟩ := fill_filled mem₁ l.sbss 0 (fun _ _ => 0)
    (show l.bssWords ≤ l.ebss - l.sbss by omega) fun _ _ _ _ _ _ => rfl
  have hloop : ∀ k, k ≤ vectorsNum → Filled mem₂ ((List.range k).foldl
      (fun mem i => Function.update mem (l.vectorsRam + 4 * i) (mem (4 * i))) mem₂)
      l.vectorsRam k fun i => mem₂ (4 * i) := by
    intro k hk
    induction k with
    | zero => exact filled_zero _ _ _
    | succ k ih =>
      have h := ih (Nat.le_of_succ_le hk)
      rw [List.range_succ, List.foldl_append, List.foldl_cons, List.foldl_nil,
        h.outside (4 * k) fun i _ => by omega]
      exact h.concat
  obtain ⟨hin₃, hout₃⟩ := hloop vectorsNum (Nat.le_refl _)
  have hcopy : copyData l mem = some mem₁ := hcopy
  have hzero : zeroBss l mem₁ = some mem₂ := hzero
  refine ⟨copyVectors l mem₂, ?_, fun i hi => ?_, fun i hi => ?_, fun i hi => ?_, fun a ha => ?_⟩
  · rw [initMemory, hcopy, Option.bind_some, hzero, Option.map_some]
  · rw [copyVectors, hout₃ _ fun j hj => by omega, hout₂ _ fun j hj => by omega]
    exact hin₁ i hi
  · rw [copyVectors, hout₃ _ fun j hj => by omega]
    exact hin₂ i hi
  · rw [copyVectors, hin₃ i hi, hout₂ _ fun j hj => by omega]
    exact hout₁ _ fun j hj => by omega
  · rw [copyVectors, hout₃ a fun j hj => by omega, hout₂ a fun j hj => by omega]
    exact hout₁ a fun j hj => by omega

end Memory

/-! ## The registers -/

/-- `WDOG_UNLOCK` -/
def wdogUnlock : UInt32 := 0x4005200E

/-- `WDOG_STCTRLH` -/
def wdogStctrlh : UInt32 := 0x40052000

/-- `SIM_SCGC3` -/
def simScgc3 : UInt32 := 0x40048030

/-- `SIM_SCGC5` -/
def simScgc5 : UInt32 := 0x40048038

/-- `SIM_SCGC6` -/
def simScgc6 : UInt32 := 0x4004803C

/-- `RTC_CR` -/
def rtcCr : UInt32 := 0x4003D010

/-- `RTC_SR` -/
def rtcSr : UInt32 := 0x4003D014

/-- `PMC_REGSC` -/
def pmcRegsc : UInt32 := 0x4007D002

/-- `SMC_PMPROT` -/
def smcPmprot : UInt32 := 0x4007E000

/-- The first of the priorities. -/
def nvicPriority : UInt32 := 0xE000E400

/-- `SCB_VTOR` -/
def scbVtor : UInt32 := 0xE000ED08

/-- `OSC0_CR` -/
def osc0Cr : UInt32 := 0x40065000

/-- `MCG_C1` -/
def mcgC1 : UInt32 := 0x40064000

/-- `MCG_C2` -/
def mcgC2 : UInt32 := 0x40064001

/-- `MCG_C5` -/
def mcgC5 : UInt32 := 0x40064004

/-- `MCG_C6` -/
def mcgC6 : UInt32 := 0x40064005

/-- `MCG_S` -/
def mcgS : UInt32 := 0x40064006

/-- `SIM_CLKDIV1` -/
def simClkdiv1 : UInt32 := 0x40048044

/-- `SIM_CLKDIV2` -/
def simClkdiv2 : UInt32 := 0x40048048

/-- `SIM_SOPT2` -/
def simSopt2 : UInt32 := 0x40048004

/-- `MCG_S_OSCINIT0` -/
def oscinit0 : UInt32 := 0x02

/-- `MCG_S_CLKST_MASK` -/
def clkstMask : UInt32 := 0x0C

/-- `MCG_S_IREFST` -/
def irefst : UInt32 := 0x10

/-- `MCG_S_PLLST` -/
def pllst : UInt32 := 0x20

/-- `MCG_S_LOCK0` -/
def lock0 : UInt32 := 0x40

/-- `MCG_S_CLKST(n)` -/
def clkst (n : UInt32) : UInt32 := (n &&& 0x03) <<< 2

/-- `MCG_C1_CLKS(n)` -/
def clks (n : UInt32) : UInt32 := (n &&& 0x03) <<< 6

/-- `MCG_C1_FRDIV(n)` -/
def frdiv (n : UInt32) : UInt32 := (n &&& 0x07) <<< 3

/-- `MCG_C2_RANGE0(n)` -/
def range0 (n : UInt32) : UInt32 := (n &&& 0x03) <<< 4

/-- `MCG_C2_EREFS` -/
def erefs : UInt32 := 0x04

/-- `MCG_C6_PLLS` -/
def plls : UInt32 := 0x40

deriving instance DecidableEq for DigIoCall

/-- `SIM_CLKDIV2_USBDIV(n)` -/
def usbdiv (n : UInt32) : UInt32 := (n &&& 0x07) <<< 1

/-- `SIM_SOPT2_CLKOUTSEL(n)` -/
def clkoutsel (n : UInt32) : UInt32 := (n &&& 0x07) <<< 5

/-- `SIM_CLKDIV1_OUTDIV1(n1) | … | SIM_CLKDIV1_OUTDIV4(n4)` -/
def outdivs (n1 n2 n3 n4 : UInt32) : UInt32 :=
  (n1 &&& 0x0F) <<< 28 ||| (n2 &&& 0x0F) <<< 24 ||| (n3 &&& 0x0F) <<< 20 ||| (n4 &&& 0x0F) <<< 16

/-- What the code does but read a register: it sets one, or calls another module. -/
inductive BootOrder where
  | set (register value : UInt32)
  | digIo (c : DigIoCall)
  | libcInitArray
  | uartInit (baud : UInt32)
  | main
  deriving DecidableEq

/-- Code that reads registers, whose answers are as wide as they are. -/
abbrev Code (α : Type) := Prog UInt32 UInt32 BootOrder α

abbrev BootEvent := Event UInt32 UInt32 BootOrder

def set (register value : UInt32) : Code Unit := order (.set register value)

/-- The oscillator of the real-time clock is started if it does not run. -/
def startRtc : Code Unit := do
  let rtc ← read rtcCr
  if rtc &&& 0x100 = 0 then do
    set rtcSr 0
    set rtcCr (0x400 ||| 0x1000 ||| 0x100)
  else pure ()

/-- `if (PMC_REGSC & PMC_REGSC_ACKISO) PMC_REGSC |= PMC_REGSC_ACKISO;` -/
def releasePins : Code Unit := do
  let regsc ← read pmcRegsc
  if regsc &&& 0x08 ≠ 0 then do
    let regsc ← read pmcRegsc
    set pmcRegsc (regsc ||| 0x08)
  else pure ()

/-- `ResetHandler` up to the memory: the watchdog and the clocks of the peripherals. -/
def wakeUp : Code Unit := do
  set wdogUnlock 0xC520
  set wdogUnlock 0xD928
  set wdogStctrlh 0x0010
  set simScgc3 (0x08000000 ||| 0x01000000)
  set simScgc5 0x00043F82
  set simScgc6 (0x20000000 ||| 0x01000000 ||| 0x02000000 ||| 0x08000000 ||| 0x00000001)
  startRtc
  releasePins
  set smcPmprot (0x20 ||| 0x08 ||| 0x02)

/-- `for (i=0; i < NVIC_NUM_INTERRUPTS; i++) NVIC_SET_PRIORITY(i, 128);` from `i` on. -/
def setPriorities : ℕ → UInt32 → Code Unit
  | 0, _ => pure ()
  | left + 1, i => do
    set (nvicPriority + i) 128
    setPriorities left (i + 1)

/-- The clock part of `ResetHandler`. -/
def startClock : Code Unit := do
  set osc0Cr (0x02 ||| 0x08 ||| 0x80)
  set mcgC2 (range0 2 ||| erefs)
  set mcgC1 (clks 2 ||| frdiv 4)
  await mcgS fun s => s &&& oscinit0 ≠ 0
  await mcgS fun s => s &&& irefst = 0
  await mcgS fun s => s &&& clkstMask = clkst 2
  set mcgC5 3
  set mcgC6 (plls ||| 0)
  await mcgS fun s => s &&& pllst ≠ 0
  await mcgS fun s => s &&& lock0 ≠ 0
  set simClkdiv1 (outdivs 0 1 0 3)
  set simClkdiv2 (usbdiv 1)
  set mcgC1 (clks 0 ||| frdiv 4)
  await mcgS fun s => s &&& clkstMask = clkst 3
  set simSopt2 (0x00040000 ||| 0x00010000 ||| 0x00001000 ||| clkoutsel 6)

/-- `ResetHandler` up to the call of `main`, with the memory behind it. -/
def startup (l : Layout) (mem : Memory) : Code Memory := do
  wakeUp
  match initMemory l mem with
  | none => fail
  | some mem => do
    setPriorities numInterrupts 0
    set scbVtor (UInt32.ofNat l.vectorsRam)
    startClock
    order .libcInitArray
    pure mem

/-! ## The clock -/

/-- Where the clock has got to. -/
inductive ClockStage where
  /-- nothing was asked for -/
  | reset
  /-- the core is to be clocked by the crystal -/
  | external
  /-- the crystal was seen to oscillate -/
  | oscillating
  /-- the reference was seen to be the crystal -/
  | referenced
  /-- the core was seen to be clocked by the crystal -/
  | bypassed
  /-- the PLL is to be used -/
  | pll
  /-- the PLL was seen to be used -/
  | pllSelected
  /-- the PLL was seen to be locked -/
  | locked
  /-- the clocks behind the PLL were divided -/
  | divided
  /-- the core is to be clocked by the PLL -/
  | engaged
  /-- the core was seen to be clocked by the PLL -/
  | running
  /-- `main` was called with the core clocked by the PLL, and has asked for nothing yet -/
  | entered
  deriving DecidableEq, Repr

/-- The stage after a look at the status. -/
def ClockStage.look (status : UInt32) : ClockStage → ClockStage
  | .external => if status &&& oscinit0 ≠ 0 then .oscillating else .external
  | .oscillating => if status &&& irefst = 0 then .referenced else .oscillating
  | .referenced => if status &&& clkstMask = clkst 2 then .bypassed else .referenced
  | .pll => if status &&& pllst ≠ 0 then .pllSelected else .pll
  | .pllSelected => if status &&& lock0 ≠ 0 then .locked else .pllSelected
  | .engaged => if status &&& clkstMask = clkst 3 then .running else .engaged
  | stage => stage

/-- The stage, and the light on pin 13 once that matters: `main` has to put it on itself. -/
structure Clock where
  stage : ClockStage
  led : Option Bool
  deriving DecidableEq

/-- The light is on where `main` waits, but for the lock of the PLL. -/
def Clock.Lit (c : Clock) : Prop := c.led = none ∨ c.led = some (decide (c.stage ≠ .pllSelected))

instance (c : Clock) : Decidable c.Lit := inferInstanceAs (Decidable (_ ∨ _))

/-- The oscillator may be set up: once before `main`, and once in it. -/
def Clock.MayStart (c : Clock) : Prop := c.stage = .reset ∨ c.stage = .entered

instance (c : Clock) : Decidable c.MayStart := inferInstanceAs (Decidable (_ ∨ _))

/-- What setting a register does to the clock, if it is not too early. -/
def Clock.set (c : Clock) (register value : UInt32) : Option Clock :=
  if register = osc0Cr ∨ register = mcgC2 then if c.MayStart then some c else none
  else if register = mcgC1 then
    if value &&& clks 3 = clks 2 ∧ c.MayStart then some { c with stage := .external }
    else if value &&& clks 3 = clks 0 ∧ c.stage = .divided then some { c with stage := .engaged }
    else none
  else if register = mcgC5 then if c.stage = .bypassed then some c else none
  else if register = mcgC6 then
    if value &&& plls ≠ 0 ∧ c.stage = .bypassed then some { c with stage := .pll } else none
  else if register = simClkdiv1 then
    if c.stage = .locked then some { c with stage := .divided } else none
  else some c

/-- The monitor of the clock. -/
def watchClock (c : Clock) : BootEvent → Option Clock
  | .asked register value =>
    if register = mcgS then
      if c.Lit then some { c with stage := c.stage.look value } else none
    else some c
  | .told (.set register value) => c.set register value
  | .told (.digIo (.setValue pin value)) =>
    if pin = 13 then some { c with led := some (value ≠ 0) } else some c
  | .told .main => if c.stage = .running then some ⟨.entered, some false⟩ else none
  | .told _ => some c

section Clock

variable {c c' : Clock} {stage : ClockStage} {α : Type} {R : α → Clock → Prop}
  {register value : UInt32}

theorem watch_look (c : Clock) (register value : UInt32) :
    watchClock c (.asked register value) =
      if register = mcgS then
        if c.Lit then some { c with stage := c.stage.look value } else none
      else some c :=
  rfl

theorem watch_set (c : Clock) (register value : UInt32) :
    watchClock c (.told (.set register value)) = c.set register value :=
  rfl

theorem wp_set {f : Unit → Code α} (h : c.set register value = some c')
    (hf : wp watchClock (f ()) R c') : wp watchClock (set register value >>= f) R c :=
  wp_order.mpr ⟨c', h, hf⟩

/-- A wait that ends with the next stage. -/
theorem wp_look (stage : ClockStage) {good : UInt32 → Bool} {f : Unit → Code α} (hlit : c.Lit)
    (hlook : ∀ s, c.stage.look s = if good s then stage else c.stage)
    (hf : wp watchClock (f ()) R { c with stage }) :
    wp watchClock (await mcgS good >>= f) R c := by
  have hawait : wp watchClock (await mcgS good) (fun _ c' => c' = { c with stage }) c := by
    apply wp_await
    intro s
    refine ⟨{ c with stage := c.stage.look s }, ?_, ?_⟩
    · rw [watch_look, if_pos rfl, if_pos hlit]
    · rw [hlook]
      split_ifs <;> rfl
  refine wp_seq hawait ?_
  rintro - c' rfl
  exact hf

/-- The event leaves the clock alone. -/
def NoClock : BootEvent → Prop
  | .asked register _ => register ≠ mcgS
  | .told (.set register _) => register ∉ [osc0Cr, mcgC1, mcgC2, mcgC5, mcgC6, simClkdiv1]
  | .told .libcInitArray => True
  | .told (.uartInit _) => True
  | .told _ => False

theorem wp_noClock {p : Code α} (h : Emits NoClock p) :
    wp watchClock p (fun _ c' => c' = c) c := by
  refine wp_frame h ?_ rfl
  rintro c' e rfl he
  rcases e with ⟨q, a⟩ | (⟨register, value⟩ | d | - | baud | -)
  · exact ⟨c', if_neg he, rfl⟩
  · refine ⟨c', ?_, rfl⟩
    have hnot : register ∉ [osc0Cr, mcgC1, mcgC2, mcgC5, mcgC6, simClkdiv1] := he
    simp only [List.mem_cons, List.not_mem_nil, or_false, not_or] at hnot
    obtain ⟨h1, h2, h3, h4, h5, h6⟩ := hnot
    rw [watch_set]
    simp only [Clock.set, h1, h2, h3, h4, h5, h6, or_self, if_false]
  · exact he.elim
  · exact ⟨c', rfl, rfl⟩
  · exact ⟨c', rfl, rfl⟩
  · exact he.elim

theorem wakeUp_noClock : Emits NoClock wakeUp := by
  have hset : ∀ register value, register ∉ [osc0Cr, mcgC1, mcgC2, mcgC5, mcgC6, simClkdiv1] →
      Emits NoClock (set register value) := fun _ _ h => ⟨h, trivial⟩
  have hrtc : Emits NoClock startRtc := by
    refine emits_read.mpr fun rtc => ⟨show rtcCr ≠ mcgS by decide, ?_⟩
    split_ifs
    · exact (hset _ _ (by decide)).bind fun _ => hset _ _ (by decide)
    · trivial
  have hpins : Emits NoClock releasePins := by
    have hread : pmcRegsc ≠ mcgS := by decide
    refine emits_read.mpr fun regsc => ⟨hread, ?_⟩
    split_ifs
    · exact emits_read.mpr fun regsc => ⟨hread, hset _ _ (by decide)⟩
    · trivial
  refine (hset _ _ (by decide)).bind fun _ => (hset _ _ (by decide)).bind fun _ =>
    (hset _ _ (by decide)).bind fun _ => (hset _ _ (by decide)).bind fun _ =>
    (hset _ _ (by decide)).bind fun _ => (hset _ _ (by decide)).bind fun _ => ?_
  exact hrtc.bind fun _ => hpins.bind fun _ => hset _ _ (by decide)

/-- The priorities are no registers of the clock. -/
theorem setPriorities_noClock {left : ℕ} {i : UInt32} (h : i.toNat + left ≤ numInterrupts) :
    Emits NoClock (setPriorities left i) := by
  induction left generalizing i with
  | zero => trivial
  | succ left ih =>
    have hi : i.toNat < 95 := by
      have h : i.toNat + (left + 1) ≤ 95 := h
      omega
    have hnext : (i + 1).toNat = i.toNat + 1 := by
      rw [UInt32.toNat_add]
      show (i.toNat + 1) % 2 ^ 32 = i.toNat + 1
      omega
    refine ⟨?_, ih (by omega)⟩
    have hadd : (nvicPriority + i).toNat = 0xE000E400 + i.toNat := by
      rw [UInt32.toNat_add]
      exact Nat.mod_eq_of_lt (by show 0xE000E400 + i.toNat < 2 ^ 32; omega)
    have hne : ∀ register : UInt32, register.toNat < 0xE000E400 → nvicPriority + i ≠ register := by
      rintro register hregister rfl
      omega
    show nvicPriority + i ∉ _
    simp only [List.mem_cons, List.not_mem_nil, or_false, not_or]
    exact ⟨hne _ (by decide), hne _ (by decide), hne _ (by decide), hne _ (by decide),
      hne _ (by decide), hne _ (by decide)⟩

/-- **The clock is started** step by step. -/
theorem startClock_clock :
    wp watchClock startClock (fun _ c => c = ⟨.running, none⟩) ⟨.reset, none⟩ := by
  have hlit : ∀ stage, Clock.Lit ⟨stage, none⟩ := fun _ => Or.inl rfl
  refine wp_set rfl (wp_set rfl (wp_set rfl ?_))
  refine wp_look .oscillating (hlit _) (fun s => by simp [ClockStage.look]) ?_
  refine wp_look .referenced (hlit _) (fun s => by simp [ClockStage.look]) ?_
  refine wp_look .bypassed (hlit _) (fun s => by simp [ClockStage.look]) ?_
  refine wp_set rfl (wp_set rfl ?_)
  refine wp_look .pllSelected (hlit _) (fun s => by simp [ClockStage.look]) ?_
  refine wp_look .locked (hlit _) (fun s => by simp [ClockStage.look]) ?_
  refine wp_set rfl (wp_set rfl (wp_set rfl ?_))
  refine wp_look .running (hlit _) (fun s => by simp [ClockStage.look]) ?_
  exact wp_order.mpr ⟨_, rfl, rfl⟩

end Clock

/-! ## The whole startup -/

section Startup

variable {l : Layout} {mem mem' : Memory} {es : List BootEvent} {p : Code Memory}

theorem startup_eq (h : initMemory l mem = some mem') :
    startup l mem = wakeUp >>= fun _ => setPriorities numInterrupts 0 >>= fun _ =>
      set scbVtor (UInt32.ofNat l.vectorsRam) >>= fun _ => startClock >>= fun _ =>
        order .libcInitArray >>= fun _ => pure mem' := by
  rw [startup]
  simp only [h]

theorem startup_clock (h : initMemory l mem = some mem') :
    wp watchClock (startup l mem) (fun m c => m = mem' ∧ c = ⟨.running, none⟩) ⟨.reset, none⟩ := by
  rw [startup_eq h]
  refine wp_seq (wp_noClock wakeUp_noClock) ?_
  rintro - c rfl
  refine wp_seq (wp_noClock (setPriorities_noClock (Nat.le_of_eq (Nat.zero_add _)))) ?_
  rintro - c rfl
  refine wp_set rfl (wp_seq startClock_clock ?_)
  rintro - c rfl
  exact wp_order.mpr ⟨_, rfl, rfl, rfl⟩

theorem setPriorities_live (left : ℕ) (i : UInt32) : Live (setPriorities left i) := by
  induction left generalizing i with
  | zero => trivial
  | succ left ih => exact ih (i + 1)

theorem startClock_live : Live startClock :=
  ⟨⟨oscinit0, rfl⟩, fun _ _ => ⟨⟨0, rfl⟩, fun _ _ => ⟨⟨clkst 2, rfl⟩, fun _ _ =>
    ⟨⟨pllst, rfl⟩, fun _ _ => ⟨⟨lock0, rfl⟩, fun _ _ => ⟨⟨clkst 3, rfl⟩, fun _ _ =>
      trivial⟩⟩⟩⟩⟩⟩

theorem startup_live (h : initMemory l mem = some mem') : Live (startup l mem) := by
  have hrtc : Live startRtc := by
    refine live_read.mpr fun rtc => ?_
    split_ifs <;> trivial
  have hpins : Live releasePins := by
    refine live_read.mpr fun regsc => ?_
    split_ifs
    · exact fun _ => trivial
    · trivial
  have hwake : Live wakeUp := hrtc.bind fun _ => hpins.bind fun _ => trivial
  rw [startup_eq h]
  refine hwake.bind fun _ => (setPriorities_live _ _).bind fun _ => ?_
  exact startClock_live.bind fun _ => trivial

/-- **Before `main`**: whatever the registers answer, no step of the clock is taken before the one
before it was seen in the status; when `main` can be called the core was seen to be clocked by the
locked PLL, the data and the vectors are those in the flash, the rest is zero, and nothing else was
written (what the constructors that `__libc_init_array` calls write is not modelled); and it can
always get there. -/
theorem startup_ready (hrun : Leads (startup l mem) es p) :
    (watched watchClock ⟨.reset, none⟩ es).isSome ∧
    (∀ mem', p = ret mem' → watched watchClock ⟨.reset, none⟩ es = some ⟨.running, none⟩ ∧
      Initialised l mem mem') ∧
    ∃ es' mem', Leads (startup l mem) (es ++ es') (ret mem') := by
  obtain ⟨mem₁, hinit, hmem⟩ := initMemory_initialised l mem
  obtain ⟨c, hc, hp⟩ := wp_sound (startup_clock hinit) hrun
  refine ⟨Option.isSome_iff_exists.mpr ⟨c, hc⟩, ?_, (startup_live hinit).goes_on hrun⟩
  rintro mem' rfl
  obtain ⟨rfl, rfl⟩ := hp
  exact ⟨hc, hmem⟩

/-- One word of data, and one that is zero. -/
def smallLayout : Layout where
  etext := 0x400
  vectorsRam := 0x1FFF8000
  sdata := 0x1FFF81BC
  dataWords := 1
  sbss := 0x1FFF81C0
  bssWords := 1
  flash := by decide
  ram := by decide
  vectors := by decide
  data := by decide

/-- The word is copied in a run that gets to `main`. -/
theorem startup_ready_small : ∃ es mem',
    Leads (startup smallLayout fun _ => 7) es (ret mem') ∧ mem' 0x1FFF81BC = 7 := by
  obtain ⟨-, -, es, mem', hrun⟩ := startup_ready (Leads.refl (startup smallLayout fun _ => 7))
  have hready := (startup_ready hrun).2.1 mem' rfl
  exact ⟨es, mem', hrun, hready.2.data 0 (by decide)⟩

end Startup

end Boot

end Ulisse
