import Ulisse.Teensy.Flash

/-!
# Teensy.FlashProtocol — what the code owes to the flash controller

Two monitors of `eeprom.c`.  `watchStores` objects to a store that does not wait for the controller:
in a run of `EEPROM_write` it never does (`write_waits`), although the first store of a call does not
wait for a controller that `EEPROM_init` gave up on.  `watchInit` objects to a command that is
launched with interrupts enabled, before the errors of the last status were acknowledged or with
other operands than those of the partition command, and to polling for ever: `EEPROM_init` does none
of it, and leaves interrupts enabled and the errors of the last status acknowledged
(`init_protocol`).
-/

namespace Ulisse

open Device Prog ByteMem

namespace Flash

/-! ## Stores -/

/-- Where the command of `EEPROM_init` stands. -/
inductive Command where
  | none
  | running
  | ended
  deriving DecidableEq, Repr

/-- What is known of the controller: that it was ready at the last look and nothing was stored since,
that something was stored, that the command failed, and how often it was seen not ready. -/
structure Controller where
  ready : Bool
  stored : Bool
  failed : Bool
  command : Command
  waits : ℕ

/-- Nothing is known. -/
def Controller.unknown : Controller := ⟨false, false, false, .none, 0⟩

/-- `EEPROM_init` had to give up: the command failed, or the controller did not become ready. -/
def Controller.GivenUp (c : Controller) : Prop := c.failed = true ∨ 200000 < c.waits

instance (c : Controller) : Decidable c.GivenUp := inferInstanceAs (Decidable (_ ∨ _))

/-- A store may be made. -/
def Controller.MayStore (c : Controller) : Prop :=
  c.ready = true ∨ c.stored = false ∧ c.GivenUp

instance (c : Controller) : Decidable c.MayStore := inferInstanceAs (Decidable (_ ∨ _))

/-- The monitor of stores. -/
def watchStores (c : Controller) : FlashEvent → Option Controller
  | .asked register value =>
    if register = ftflFcnfg then
      if value &&& eeerdy ≠ 0 then some { c with ready := true }
      else some { c with ready := false, waits := c.waits + 1 }
    else if c.command = .ended then
      some { c with command := .none, failed := value &&& fstatErrors ≠ 0 }
    else some c
  | .told (.set register value) =>
    if register = ftflFstat ∧ value = ccif then some { c with ready := false, command := .running }
    else some c
  | .told (.irq enabled) =>
    if enabled = true ∧ c.command = .running then some { c with command := .ended } else some c
  | .told (.access (.load _ _ _)) => some c
  | .told (.access (.store _ _ _)) =>
    if c.MayStore then some { c with ready := false, stored := true } else none

section Stores

variable {c : Controller} {α : Type} {R : α → Controller → Prop} {register : UInt32} {v : UInt8}

/-- Acknowledging errors launches nothing. -/
theorem errors_ne_ccif (v : UInt8) : v &&& fstatErrors ≠ ccif := by
  intro h
  have hand := congrArg (· &&& ccif) h
  simp only [UInt8.and_assoc] at hand
  have h0 : fstatErrors &&& ccif = 0 := rfl
  rw [h0, UInt8.and_zero] at hand
  exact absurd hand (by decide)

theorem watch_ready (h : v &&& eeerdy ≠ 0) :
    watchStores c (.asked ftflFcnfg v) = some { c with ready := true } := by
  rw [watchStores, if_pos rfl, if_pos h]

theorem watch_busy (h : ¬ v &&& eeerdy ≠ 0) : watchStores c (.asked ftflFcnfg v) =
    some { c with ready := false, waits := c.waits + 1 } := by
  rw [watchStores, if_pos rfl, if_neg h]

/-- A look at the controller tells only whether it is ready. -/
theorem watch_fcnfg (c : Controller) (v : UInt8) :
    ∃ c', watchStores c (.asked ftflFcnfg v) = some c' ∧ c'.command = c.command ∧
      c'.stored = c.stored ∧ (v &&& eeerdy ≠ 0 → c'.ready = true) := by
  by_cases h : v &&& eeerdy ≠ 0
  · exact ⟨_, watch_ready h, rfl, rfl, fun _ => rfl⟩
  · exact ⟨_, watch_busy h, rfl, rfl, fun h' => absurd h' h⟩

theorem watch_fstat (h : c.command ≠ .ended) : watchStores c (.asked ftflFstat v) = some c := by
  have hfstat : ¬ ftflFstat = ftflFcnfg := by decide
  rw [watchStores, if_neg hfstat, if_neg h]

theorem watch_result (h : c.command = .ended) : watchStores c (.asked ftflFstat v) =
    some { c with command := .none, failed := v &&& fstatErrors ≠ 0 } := by
  have hfstat : ¬ ftflFstat = ftflFcnfg := by decide
  rw [watchStores, if_neg hfstat, if_pos h]

theorem watch_set (h : ¬ (register = ftflFstat ∧ v = ccif)) :
    watchStores c (.told (.set register v)) = some c := by
  rw [watchStores, if_neg h]

theorem watch_launch : watchStores c (.told (.set ftflFstat ccif)) =
    some { c with ready := false, command := .running } := by
  rw [watchStores, if_pos ⟨rfl, rfl⟩]

theorem watch_irq (h : c.command ≠ .running) (enabled : Bool) :
    watchStores c (.told (.irq enabled)) = some c := by
  rw [watchStores, if_neg fun he => h he.2]

theorem watch_ended (h : c.command = .running) :
    watchStores c (.told (.irq true)) = some { c with command := .ended } := by
  rw [watchStores, if_pos ⟨rfl, h⟩]

theorem watch_store (h : c.MayStore) {width offset word : ℕ} :
    watchStores c (.told (.access (.store width offset word))) =
      some { c with ready := false, stored := true } := by
  rw [watchStores, if_pos h]

/-- What the monitor makes of an operand of the command. -/
theorem wp_operand (hr : register ≠ ftflFstat) {f : Unit → Flash α}
    (h : wp watchStores (f ()) R c) : wp watchStores (set register v >>= f) R c :=
  wp_order.mpr ⟨c, watch_set fun he => hr he.1, h⟩

theorem clearErrors_stores (hc : c.command = .none) :
    wp watchStores clearErrors (fun _ c' => c' = c) c := by
  have hended : c.command ≠ .ended := by rw [hc]; decide
  refine wp_read.mpr fun status => ⟨c, watch_fstat hended, ?_⟩
  split_ifs
  · exact ⟨c, watch_set fun he => errors_ne_ccif status he.2, rfl⟩
  · exact (rfl : c = c)

theorem doFlashCmd_stores :
    wp watchStores doFlashCmd (fun _ c' => c' = { c with ready := false, command := .running }) c := by
  refine wp_order.mpr ⟨_, watch_launch, wp_await fun status => ⟨_, watch_fstat (by simp), ?_⟩⟩
  split_ifs <;> rfl

/-- The last loop ends with the controller ready, or after so many looks. -/
theorem waitReady_stores (left : ℕ) :
    wp watchStores (waitReady left) (fun _ c' => c'.stored = c.stored ∧ c'.command = c.command ∧
      (c'.ready = true ∨ c.waits + left < c'.waits)) c := by
  induction left generalizing c with
  | zero =>
    refine wp_read.mpr fun config => ?_
    by_cases hready : config &&& eeerdy ≠ 0
    · exact ⟨_, watch_ready hready, rfl, rfl, Or.inl rfl⟩
    · exact ⟨_, watch_busy hready, rfl, rfl, Or.inr (Nat.lt_succ_self _)⟩
  | succ left ih =>
    refine wp_read.mpr fun config => ?_
    by_cases hready : config &&& eeerdy ≠ 0
    · refine ⟨_, watch_ready hready, ?_⟩
      rw [if_pos hready]
      exact ⟨rfl, rfl, Or.inl rfl⟩
    · refine ⟨_, watch_busy hready, ?_⟩
      rw [if_neg hready]
      refine wp_mono ih ?_
      rintro - c' ⟨h1, h2, h3⟩
      refine ⟨h1, h2, h3.imp_right fun h => ?_⟩
      have h : c.waits + 1 + left < c'.waits := h
      omega

/-- A store may be made as soon as no command is under way. -/
structure Controller.Usable (c : Controller) : Prop where
  idle : c.command = .none
  may : c.MayStore

theorem waitReady_usable (hc : c.command = .none) (hs : c.stored = false) :
    wp watchStores (waitReady 200000) (fun _ c' => c'.Usable) c := by
  refine wp_mono (waitReady_stores 200000) ?_
  rintro - c' ⟨h1, h2, h3⟩
  refine ⟨h2.trans hc, h3.imp_right fun h => ⟨h1.trans hs, Or.inr ?_⟩⟩
  omega

theorem partitionFlash_stores (hc : c.command = .none) (hs : c.stored = false) :
    wp watchStores partitionFlash (fun _ c' => c'.Usable) c := by
  refine wp_seq (clearErrors_stores hc) ?_
  rintro - m rfl
  refine wp_operand (by decide) (wp_operand (by decide) (wp_operand (by decide)
    (wp_operand (by decide) ?_)))
  have hidle : m.command ≠ .running := by
    rw [hc]
    decide
  refine wp_order.mpr ⟨m, watch_irq hidle false, wp_seq doFlashCmd_stores ?_⟩
  rintro - m' rfl
  refine wp_order.mpr ⟨_, watch_ended rfl, wp_read.mpr fun status => ⟨_, watch_result rfl, ?_⟩⟩
  split_ifs with herr
  · refine ⟨_, watch_set fun he => errors_ne_ccif status he.2, rfl, Or.inr ⟨hs, Or.inl ?_⟩⟩
    exact decide_eq_true herr
  · exact waitReady_usable rfl hs

theorem init_stores (hc : c.command = .none) (hs : c.stored = false) :
    wp watchStores init (fun _ c' => c'.Usable) c := by
  refine wp_read.mpr fun config => ?_
  obtain ⟨c', hw, h1, h2, -⟩ := watch_fcnfg c config
  refine ⟨c', hw, ?_⟩
  split_ifs
  · exact partitionFlash_stores (h1.trans hc) (h2.trans hs)
  · exact waitReady_usable (h1.trans hc) (h2.trans hs)

theorem ensureReady_stores (hc : c.command = .none) (hs : c.stored = false) :
    wp watchStores ensureReady (fun _ c' => c'.Usable) c := by
  refine wp_read.mpr fun config => ?_
  obtain ⟨c', hw, h1, h2, h3⟩ := watch_fcnfg c config
  refine ⟨c', hw, ?_⟩
  split_ifs with hready
  · exact init_stores (h1.trans hc) (h2.trans hs)
  · exact ⟨h1.trans hc, Or.inl (h3 hready)⟩

/-- After a store the code waits for the controller. -/
theorem flexramWait_stores (hc : c.command = .none) :
    wp watchStores flexramWait (fun _ c' => c'.Usable) c := by
  refine ⟨fun c' => c'.command = .none, hc, fun c' hc' config => ?_⟩
  by_cases hready : config &&& eeerdy ≠ 0
  · refine ⟨_, watch_ready hready, ?_⟩
    dsimp only
    rw [if_pos (decide_eq_true hready)]
    exact ⟨hc', Or.inl rfl⟩
  · refine ⟨_, watch_busy hready, ?_⟩
    dsimp only
    rw [if_neg (fun h => hready (of_decide_eq_true h))]
    exact hc'

theorem perform_stores (as : List Access) (hc : c.Usable) :
    wp watchStores (perform as) (fun _ c' => c'.Usable) c := by
  induction as generalizing c with
  | nil => exact hc
  | cons a as ih =>
    cases a with
    | load width offset word => exact wp_order.mpr ⟨c, rfl, ih hc⟩
    | store width offset word =>
      refine wp_seq (clearErrors_stores hc.idle) ?_
      rintro - m rfl
      refine wp_order.mpr ⟨_, watch_store hc.may, ?_⟩
      refine wp_seq (flexramWait_stores hc.idle) ?_
      rintro - m' hm'
      exact ih hm'

theorem writeLoop_stores {n : ℕ} {s t : WriteState} {as : List Access}
    (h : EEPROM.writeLoop n s = some (t, as)) (hc : c.Usable) :
    wp watchStores (writeLoop n s) (fun _ c' => c'.Usable) c := by
  induction n generalizing s as c with
  | zero =>
    rw [EEPROM.writeLoop] at h
    rw [writeLoop]
    split_ifs at h with h0
    rw [if_pos h0]
    exact hc
  | succ n ih =>
    rw [EEPROM.writeLoop] at h
    rw [writeLoop]
    split_ifs at h with h0
    · rw [if_pos h0]
      exact hc
    · rw [if_neg h0]
      obtain ⟨⟨s₁, as₁⟩, hturn, hrest⟩ := Option.bind_eq_some_iff.mp h
      obtain ⟨⟨s₂, as₂⟩, hloop, he⟩ := Option.map_eq_some_iff.mp hrest
      obtain ⟨rfl, -⟩ := Prod.mk.inj he
      simp only [hturn]
      refine wp_seq (perform_stores as₁ hc) ?_
      rintro - m hm
      exact ih hloop hm

theorem write_stores {ram ram' : FlexRam} {dest size : UInt16} {buf : List UInt8}
    {as : List Access} (h : EEPROM.write ram dest buf size = some (ram', as)) :
    wp watchStores (write ram dest buf size) (fun _ c => c.stored = true → c.ready = true)
      .unknown := by
  rcases write_cases h with ⟨hw, -⟩ | ⟨n, s, t, hloop, -, hw⟩
  · rw [hw]
    exact fun h => (by cases h)
  · rw [hw]
    refine wp_seq (ensureReady_stores rfl rfl) ?_
    rintro - c hc
    refine wp_seq (writeLoop_stores hloop hc) ?_
    rintro t' c' hc' hstored
    rcases hc'.may with hready | ⟨hs, -⟩
    · exact hready
    · rw [hs] at hstored
      cases hstored

/-- **Every store waits for the controller**: in a run of `EEPROM_write` of `size` bytes that are
there each store is made when the controller was ready at the last look and nothing was stored since,
or it is the first one after `EEPROM_init` gave up; and the call only ends when the controller is
ready for the next store. -/
theorem write_waits {ram : FlexRam} {dest size : UInt16} {buf : List UInt8}
    {es : List FlashEvent} {p : Flash FlexRam} (h : size.toNat ≤ buf.length)
    (hrun : Leads (write ram dest buf size) es p) :
    ∃ c, watched watchStores .unknown es = some c ∧
      ∀ r, p = ret r → c.stored = true → c.ready = true := by
  obtain ⟨as, hwrite⟩ := EEPROM.write_eq ram dest h
  obtain ⟨c, hc, hp⟩ := wp_sound (write_stores hwrite) hrun
  refine ⟨c, hc, ?_⟩
  rintro r rfl
  exact hp

/-- The controller is polled until it is ready, and the call returns. -/
theorem write_waits_two : ∃ r c,
    Leads (write (fun _ => 0) 0 [0x12, 0x34] 2) busyRun (ret r) ∧
    watched watchStores .unknown busyRun = some c ∧ c.stored = true ∧ c.ready = true := by
  have hsize : (2 : UInt16).toNat ≤ [(0x12 : UInt8), 0x34].length := Nat.le_refl 2
  obtain ⟨r, hleads, -⟩ := busyRun_leads
  obtain ⟨c, hc, hready⟩ := write_waits hsize hleads
  have hstored : (watched watchStores .unknown busyRun).map (·.stored) = some true := by
    decide +kernel
  rw [hc] at hstored
  have hstored : c.stored = true := Option.some_inj.mp hstored
  exact ⟨r, c, hleads, hc, hstored, hready r rfl hstored⟩

end Stores

/-! ## The partition command -/

/-- What `EEPROM_init` did so far: whether interrupts are enabled, the registers it wrote, the errors
of the last status that it did not acknowledge, whether the FlexRAM came up as plain RAM, whether the
command was launched, and how often it asked for the configuration. -/
structure Setup where
  irq : Bool
  written : UInt32 → Option UInt8
  errors : UInt8
  plain : Bool
  launched : Bool
  reads : ℕ

/-- Nothing was done, and interrupts are enabled. -/
def Setup.start : Setup := ⟨true, fun _ => none, 0, false, false, 0⟩

/-- The operands of the partition command. -/
def Setup.Operands (c : Setup) : Prop :=
  c.written ftflFccob0 = some 0x80 ∧ c.written ftflFccob3 = some 0 ∧
    c.written ftflFccob4 = some 0x33 ∧ c.written ftflFccob5 = some 0x03

instance (c : Setup) : Decidable c.Operands := inferInstanceAs (Decidable (_ ∧ _))

/-- The command may be launched. -/
structure Setup.MayLaunch (c : Setup) : Prop where
  plain : c.plain = true
  once : c.launched = false
  irq : c.irq = false
  errors : c.errors = 0
  operands : c.Operands

instance (c : Setup) : Decidable c.MayLaunch :=
  decidable_of_iff (c.plain = true ∧ c.launched = false ∧ c.irq = false ∧ c.errors = 0 ∧ c.Operands)
    ⟨fun ⟨h1, h2, h3, h4, h5⟩ => ⟨h1, h2, h3, h4, h5⟩,
      fun ⟨h1, h2, h3, h4, h5⟩ => ⟨h1, h2, h3, h4, h5⟩⟩

/-- The monitor of `EEPROM_init`. -/
def watchInit (c : Setup) : FlashEvent → Option Setup
  | .asked register value =>
    if register = ftflFcnfg then
      if c.irq = true ∧ c.reads < 200002 then
        some { c with
          plain := if c.reads = 0 then value &&& ramrdy ≠ 0 else c.plain
          reads := c.reads + 1 }
      else none
    else some { c with errors := value &&& fstatErrors }
  | .told (.set register value) =>
    if register = ftflFstat then
      if value = ccif then
        if c.MayLaunch then some { c with launched := true } else none
      else if value = c.errors ∧ value ≠ 0 then some { c with errors := 0 } else none
    else some { c with written := Function.update c.written register (some value) }
  | .told (.irq enabled) => if enabled = c.irq then none else some { c with irq := enabled }
  | .told (.access _) => none

section Init

variable {c : Setup} {α : Type} {R : α → Setup → Prop} {register : UInt32} {v : UInt8}

theorem init_fcnfg (hirq : c.irq = true) (hreads : c.reads < 200002) :
    watchInit c (.asked ftflFcnfg v) = some { c with
      plain := if c.reads = 0 then v &&& ramrdy ≠ 0 else c.plain
      reads := c.reads + 1 } := by
  rw [watchInit, if_pos rfl, if_pos ⟨hirq, hreads⟩]

theorem init_fstat :
    watchInit c (.asked ftflFstat v) = some { c with errors := v &&& fstatErrors } := by
  have hfstat : ¬ ftflFstat = ftflFcnfg := by decide
  rw [watchInit, if_neg hfstat]

theorem init_acknowledge (hv : v &&& fstatErrors ≠ 0) :
    watchInit { c with errors := v &&& fstatErrors } (.told (.set ftflFstat (v &&& fstatErrors))) =
      some { c with errors := 0 } := by
  rw [watchInit, if_pos rfl, if_neg (errors_ne_ccif v), if_pos ⟨rfl, hv⟩]

theorem init_launch (h : c.MayLaunch) :
    watchInit c (.told (.set ftflFstat ccif)) = some { c with launched := true } := by
  rw [watchInit, if_pos rfl, if_pos rfl, if_pos h]

theorem init_irq {enabled : Bool} (h : enabled ≠ c.irq) :
    watchInit c (.told (.irq enabled)) = some { c with irq := enabled } := by
  rw [watchInit, if_neg h]

theorem init_operand (hr : register ≠ ftflFstat) {f : Unit → Flash α}
    (h : wp watchInit (f ()) R
      { c with written := Function.update c.written register (some v) }) :
    wp watchInit (set register v >>= f) R c :=
  wp_order.mpr ⟨_, by rw [watchInit, if_neg hr], h⟩

/-- The errors of the status are acknowledged. -/
theorem clearErrors_init :
    wp watchInit clearErrors (fun _ c' => c' = { c with errors := 0 }) c := by
  refine wp_read.mpr fun status => ⟨_, init_fstat, ?_⟩
  split_ifs with herr
  · exact ⟨_, init_acknowledge herr, rfl⟩
  · have h0 : status &&& fstatErrors = 0 := not_not.mp herr
    exact congrArg (fun e => { c with errors := e }) h0

theorem doFlashCmd_init (h : c.MayLaunch) :
    wp watchInit doFlashCmd (fun _ c' => ∃ e, c' = { c with launched := true, errors := e }) c := by
  refine wp_order.mpr ⟨_, init_launch h, ?_⟩
  refine ⟨fun c' => ∃ e, c' = { c with launched := true, errors := e }, ⟨c.errors, rfl⟩, ?_⟩
  rintro m ⟨e, rfl⟩ status
  refine ⟨_, init_fstat, ?_⟩
  split_ifs <;> exact ⟨status &&& fstatErrors, rfl⟩

/-- `EEPROM_init` may return. -/
structure Setup.Done (c : Setup) : Prop where
  irq : c.irq = true
  errors : c.errors = 0
  launched : c.launched = c.plain

theorem waitReady_init {left : ℕ} (hc : c.Done) (h0 : c.reads ≠ 0)
    (hleft : c.reads + left < 200002) :
    wp watchInit (waitReady left) (fun _ c' => c'.Done) c := by
  induction left generalizing c with
  | zero =>
    refine wp_read.mpr fun config => ⟨_, init_fcnfg hc.irq hleft, ?_⟩
    rw [if_neg h0]
    exact ⟨hc.irq, hc.errors, hc.launched⟩
  | succ left ih =>
    refine wp_read.mpr fun config => ⟨_, init_fcnfg hc.irq (by omega), ?_⟩
    rw [if_neg h0]
    split_ifs
    · exact ⟨hc.irq, hc.errors, hc.launched⟩
    · exact ih ⟨hc.irq, hc.errors, hc.launched⟩ (Nat.succ_ne_zero _) (by dsimp only; omega)

/-- The partition command is launched as it has to be, and its errors are acknowledged. -/
theorem partitionFlash_init (hirq : c.irq = true) (hplain : c.plain = true)
    (honce : c.launched = false) (hreads : c.reads = 1) :
    wp watchInit partitionFlash (fun _ c' => c'.Done) c := by
  refine wp_seq clearErrors_init ?_
  rintro - m rfl
  refine init_operand (by decide) (init_operand (by decide) (init_operand (by decide)
    (init_operand (by decide) ?_)))
  refine wp_order.mpr ⟨_, init_irq (by simp [hirq]), wp_seq (doFlashCmd_init ?_) ?_⟩
  · exact ⟨hplain, honce, rfl, rfl, rfl, rfl, rfl, rfl⟩
  · rintro - m ⟨e, rfl⟩
    refine wp_order.mpr ⟨_, init_irq (by simp), wp_read.mpr fun status => ⟨_, init_fstat, ?_⟩⟩
    split_ifs with herr
    · exact ⟨_, init_acknowledge herr, rfl, rfl, hplain.symm⟩
    · refine waitReady_init ⟨rfl, not_not.mp herr, hplain.symm⟩ ?_ ?_
      · simp [hreads]
      · simp [hreads]

/-- **How the flash is partitioned**: in a run of `EEPROM_init` the command is launched at most once,
with its operands, with interrupts disabled and the errors of the last status acknowledged; the
configuration is never asked for more than 200002 times, nor with interrupts disabled; nothing is
stored.  When it returns interrupts are enabled again, the errors of the last status were
acknowledged, and the command was launched exactly if the FlexRAM had come up as plain RAM; and it
can always return. -/
theorem init_protocol {es : List FlashEvent} {p : Flash Unit} (hrun : Leads init es p) :
    ∃ c, watched watchInit .start es = some c ∧
      (p = ret () → c.irq = true ∧ c.errors = 0 ∧ c.launched = c.plain) ∧
      ∃ es', Leads init (es ++ es') (ret ()) := by
  have hwp : wp watchInit init (fun _ c => c.Done) .start := by
    refine wp_read.mpr fun config => ⟨_, init_fcnfg rfl (by decide), ?_⟩
    rw [if_pos (show Setup.start.reads = 0 from rfl)]
    split_ifs with hplain
    · exact partitionFlash_init rfl (decide_eq_true hplain) rfl rfl
    · refine waitReady_init ⟨rfl, rfl, (decide_eq_false hplain).symm⟩ Nat.one_ne_zero ?_
      simp [Setup.start]
  obtain ⟨c, hc, hp⟩ := wp_sound hwp hrun
  obtain ⟨es', r, hend⟩ := init_live.goes_on hrun
  refine ⟨c, hc, ?_, es', hend⟩
  rintro rfl
  exact ⟨hp.irq, hp.errors, hp.launched⟩

/-- The FlexRAM came up as plain RAM, with an error of an earlier command: the command is launched,
and fails. -/
theorem init_protocol_fails : ∃ c,
    watched watchInit .start [.asked ftflFcnfg 0x02, .asked ftflFstat 0x10,
      .told (.set ftflFstat 0x10), .told (.set ftflFccob0 0x80), .told (.set ftflFccob3 0),
      .told (.set ftflFccob4 0x33), .told (.set ftflFccob5 0x03), .told (.irq false),
      .told (.set ftflFstat 0x80), .asked ftflFstat 0, .asked ftflFstat 0xA0, .told (.irq true),
      .asked ftflFstat 0xA0, .told (.set ftflFstat 0x20)] = some c ∧
    c.launched = c.plain := by
  have hrun : Leads init [.asked ftflFcnfg 0x02, .asked ftflFstat 0x10,
      .told (.set ftflFstat 0x10), .told (.set ftflFccob0 0x80), .told (.set ftflFccob3 0),
      .told (.set ftflFccob4 0x33), .told (.set ftflFccob5 0x03), .told (.irq false),
      .told (.set ftflFstat 0x80), .asked ftflFstat 0, .asked ftflFstat 0xA0, .told (.irq true),
      .asked ftflFstat 0xA0, .told (.set ftflFstat 0x20)] (ret ()) := ⟨_, rfl⟩
  obtain ⟨c, hc, hend, -⟩ := init_protocol hrun
  exact ⟨c, hc, (hend rfl).2.2⟩

end Init

end Flash

end Ulisse
