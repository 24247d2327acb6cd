import Ulisse.Client.Lifecycle
import Ulisse.Host.Serial
import Ulisse.Lib.Stdio

/-!
# Host.Options — the command line of the host

The front of `main` in `host.c`.  Options are taken off the arguments one by one; `Reads` says what
items the arguments are made of, and `parse_iff` that the program runs with the last value of each
option, values being taken whatever they look like and unknown arguments being passed over.  The
arguments decide which port is opened and at what speed: a client can only be had for the numbers
57600 and 115200 (`host_connects`).
-/

namespace Ulisse

open Numeral Stdio

/-- An argument; `argv` may hold any bytes but 0. -/
abbrev Arg := List UInt8

def bytesOf (s : String) : Arg := s.toUTF8.toList

/-- The options that take a value. -/
inductive HostOption where
  | rate
  | serialDevice
  | baud
  | jsDevice
  deriving DecidableEq, Repr

def HostOption.name : HostOption → Arg
  | rate => bytesOf "-rate"
  | serialDevice => bytesOf "-serial-device"
  | baud => bytesOf "-baud"
  | jsDevice => bytesOf "-js-device"

/-- The variables of `main` that options set; a device is `none` for the null pointer. -/
structure HostOptions where
  device : Option Arg
  jsDevice : Option Arg
  baudrate : UInt32
  rate : ℤ
  deriving DecidableEq

def HostOptions.defaults : HostOptions where
  device := some (bytesOf "/dev/ttyACM0")
  jsDevice := some (bytesOf "/dev/input/js0")
  baudrate := 115200
  rate := 20

/-- How the loop over the arguments ends. -/
inductive Parsed where
  | undefined
  | banner
  | run (o : HostOptions)
  deriving DecidableEq

/-- Setting an option to a value. -/
def HostOptions.set (o : HostOptions) : HostOption → Arg → HostOptions
  | .rate, v => { o with rate := atoi v }
  | .serialDevice, v => { o with device := some v }
  | .baud, v => { o with baudrate := UInt32.ofInt (atoi v) }
  | .jsDevice, v => { o with jsDevice := some v }

/-- Setting an option to `argv[argc]`, which is null; `atoi` of that is undefined. -/
def HostOptions.setNull (o : HostOptions) : HostOption → Option HostOptions
  | .rate => none
  | .serialDevice => some { o with device := none }
  | .baud => none
  | .jsDevice => some { o with jsDevice := none }

/-- The option that an argument names, in the order of the comparisons. -/
def option? (arg : Arg) : Option HostOption :=
  if arg = HostOption.rate.name then some .rate
  else if arg = HostOption.serialDevice.name then some .serialDevice
  else if arg = HostOption.baud.name then some .baud
  else if arg = HostOption.jsDevice.name then some .jsDevice
  else none

/-- `!strcmp(argv[c], "-h") || !strcmp(argv[c], "-help")` -/
def Help (arg : Arg) : Prop := arg = bytesOf "-h" ∨ arg = bytesOf "-help"

instance (arg : Arg) : Decidable (Help arg) := inferInstanceAs (Decidable (_ ∨ _))

/-- The loop over the arguments. -/
def parse : List Arg → HostOptions → Parsed
  | [], o => .run o
  | arg :: args, o =>
    match option? arg with
    | some option =>
      match args with
      | [] =>
        match o.setNull option with
        | none => .undefined
        | some o => .run o
      | v :: args => parse args (o.set option v)
    | none => if Help arg then .banner else parse args o

/-- `main` up to `UlisseClient_init`; the arguments are those behind the program's name. -/
def parseMain (args : List Arg) : Parsed :=
  if args = [] then .banner else parse args .defaults

/-! ## What the arguments are made of -/

/-- An item of the command line: an option with its value, one that is the last argument, or an
argument that is passed over. -/
inductive Item where
  | set (option : HostOption) (v : Arg)
  | last (option : HostOption)
  | other (arg : Arg)
  deriving DecidableEq

/-- The arguments are these items. -/
inductive Reads : List Arg → List Item → Prop where
  | nil : Reads [] []
  | set (option : HostOption) (v : Arg) {args : List Arg} {items : List Item}
      (h : Reads args items) : Reads (option.name :: v :: args) (.set option v :: items)
  | last (option : HostOption) : Reads [option.name] [.last option]
  | other {arg : Arg} {args : List Arg} {items : List Item}
      (hoption : ∀ option : HostOption, arg ≠ option.name) (hhelp : ¬ Help arg)
      (h : Reads args items) : Reads (arg :: args) (.other arg :: items)

/-- The value of an option in an item; `none` inside for the null pointer. -/
def Item.value? (option : HostOption) : Item → Option (Option Arg)
  | .set option' v => if option' = option then some (some v) else none
  | .last option' => if option' = option then some none else none
  | .other _ => none

/-- The number that an option is set to in an item. -/
def Item.number? (option : HostOption) : Item → Option ℤ
  | .set option' v => if option' = option then some (atoi v) else none
  | _ => none

/-- What the last item that has one has. -/
def lastOf {α : Type} (f : Item → Option α) (items : List Item) : Option α :=
  (items.filterMap f).getLast?

/-- Setting the item is defined: a number has a text. -/
def Item.Defined : Item → Prop
  | .last .rate => False
  | .last .baud => False
  | _ => True

/-- The variables behind the items: each has the last value of its option, or is as it was. -/
structure Settings (items : List Item) (o o' : HostOptions) : Prop where
  device : o'.device = (lastOf (Item.value? .serialDevice) items).getD o.device
  jsDevice : o'.jsDevice = (lastOf (Item.value? .jsDevice) items).getD o.jsDevice
  rate : o'.rate = (lastOf (Item.number? .rate) items).getD o.rate
  baudrate : o'.baudrate = ((lastOf (Item.number? .baud) items).map UInt32.ofInt).getD o.baudrate

/-- What an item does. -/
def Item.apply (o : HostOptions) : Item → Option HostOptions
  | .set option v => some (o.set option v)
  | .last option => o.setNull option
  | .other _ => some o

/-- What items do, one after the other. -/
def applyAll : List Item → HostOptions → Option HostOptions
  | [], o => some o
  | i :: items, o => (i.apply o).bind (applyAll items)

section Parse

variable {args : List Arg} {arg : Arg} {option : HostOption} {items : List Item}
  {o o' : HostOptions}

theorem option?_name (option : HostOption) : option? option.name = some option := by
  cases option <;> decide +kernel

theorem option?_some : option? arg = some option ↔ arg = option.name := by
  constructor
  · intro h
    unfold option? at h
    split_ifs at h with h1 h2 h3 h4
    · exact Option.some_inj.mp h ▸ h1
    · exact Option.some_inj.mp h ▸ h2
    · exact Option.some_inj.mp h ▸ h3
    · exact Option.some_inj.mp h ▸ h4
  · rintro rfl
    exact option?_name option

theorem option?_none : option? arg = none ↔ ∀ option : HostOption, arg ≠ option.name := by
  rw [Option.eq_none_iff_forall_ne_some]
  exact forall_congr' fun option => not_congr option?_some

/-- The loop runs through items that the arguments are made of. -/
theorem parse_reads (h : parse args o = .run o') :
    ∃ items, Reads args items ∧ applyAll items o = some o' := by
  fun_induction parse args o with
  | case1 o =>
    obtain rfl := Parsed.run.inj h
    exact ⟨[], .nil, rfl⟩
  | case2 => cases h
  | case3 o arg option hoption o₁ hset =>
    obtain rfl := Parsed.run.inj h
    obtain rfl := option?_some.mp hoption
    exact ⟨_, .last option, by rw [applyAll, Item.apply, hset]; rfl⟩
  | case4 o arg option hoption v args ih =>
    obtain ⟨items, hreads, happly⟩ := ih h
    obtain rfl := option?_some.mp hoption
    exact ⟨_, .set option v hreads, happly⟩
  | case5 => cases h
  | case6 o arg args hoption hhelp ih =>
    obtain ⟨items, hreads, happly⟩ := ih h
    exact ⟨_, .other (option?_none.mp hoption) hhelp hreads, happly⟩

/-- Items that can be applied are run through. -/
theorem reads_parse (h : Reads args items) (happly : applyAll items o = some o') :
    parse args o = .run o' := by
  induction h generalizing o with
  | nil => exact congrArg Parsed.run (Option.some_inj.mp happly)
  | set option v h ih =>
    rw [parse, option?_name]
    exact ih happly
  | last option =>
    obtain ⟨o₁, hset, hrest⟩ := Option.bind_eq_some_iff.mp happly
    have hset : o.setNull option = some o₁ := hset
    rw [parse, option?_name]
    simp only [hset]
    exact congrArg Parsed.run (Option.some_inj.mp hrest)
  | other hoption hhelp h ih =>
    rw [parse, option?_none.mpr hoption]
    simp only [if_neg hhelp]
    exact ih happly

@[simp] theorem lastOf_nil {α : Type} (f : Item → Option α) : lastOf f [] = none := rfl

theorem lastOf_cons {α : Type} (f : Item → Option α) (i : Item) (items : List Item) :
    lastOf f (i :: items) = (lastOf f items).or (f i) := by
  unfold lastOf
  cases h : f i with
  | none => rw [List.filterMap_cons_none h, Option.or_none]
  | some a =>
    rw [List.filterMap_cons_some h, List.getLast?_cons]
    cases (items.filterMap f).getLast? <;> rfl

theorem settings_nil : Settings [] o o' ↔ o' = o := by
  constructor
  · rintro ⟨h1, h2, h3, h4⟩
    cases o
    cases o'
    simp only [lastOf_nil, Option.getD_none, Option.map_none] at h1 h2 h3 h4
    rw [h1, h2, h3, h4]
  · rintro rfl
    exact ⟨rfl, rfl, rfl, rfl⟩

/-- A later value takes the place of an earlier one. -/
theorem settings_cons {i : Item} {o₁ : HostOptions} (h : Settings [i] o o₁) :
    Settings (i :: items) o o' ↔ Settings items o₁ o' := by
  have hor : ∀ {α : Type} (x y : Option α) (a : α), (x.or y).getD a = x.getD (y.getD a) := by
    intro α x y a
    cases x <;> rfl
  obtain ⟨h1, h2, h3, h4⟩ := h
  simp only [lastOf_cons, lastOf_nil, Option.none_or] at h1 h2 h3 h4
  constructor
  · rintro ⟨g1, g2, g3, g4⟩
    simp only [lastOf_cons, Option.map_or, hor, ← h1, ← h2, ← h3, ← h4] at g1 g2 g3 g4
    exact ⟨g1, g2, g3, g4⟩
  · rintro ⟨g1, g2, g3, g4⟩
    refine ⟨?_, ?_, ?_, ?_⟩ <;> simp only [lastOf_cons, Option.map_or, hor, ← h1, ← h2, ← h3, ← h4]
    · exact g1
    · exact g2
    · exact g3
    · exact g4

theorem Settings.unique (h : Settings items o o') {o₁ : HostOptions} (h' : Settings items o o₁) :
    o' = o₁ := by
  cases o'
  cases o₁
  obtain ⟨h1, h2, h3, h4⟩ := h
  obtain ⟨g1, g2, g3, g4⟩ := h'
  simp only at h1 h2 h3 h4 g1 g2 g3 g4
  rw [h1, h2, h3, h4, g1, g2, g3, g4]

/-- **One item** is applied if it is defined, and changes one variable. -/
theorem apply_defined {i : Item} (h : i.Defined) (o : HostOptions) :
    ∃ o', i.apply o = some o' ∧ Settings [i] o o' := by
  cases i with
  | other arg => exact ⟨o, rfl, rfl, rfl, rfl, rfl⟩
  | last option =>
    cases option with
    | rate => exact h.elim
    | serialDevice => exact ⟨_, rfl, rfl, rfl, rfl, rfl⟩
    | baud => exact h.elim
    | jsDevice => exact ⟨_, rfl, rfl, rfl, rfl, rfl⟩
  | set option v =>
    cases option with
    | rate => exact ⟨_, rfl, rfl, rfl, rfl, rfl⟩
    | serialDevice => exact ⟨_, rfl, rfl, rfl, rfl, rfl⟩
    | baud => exact ⟨_, rfl, rfl, rfl, rfl, rfl⟩
    | jsDevice => exact ⟨_, rfl, rfl, rfl, rfl, rfl⟩

theorem defined_of_apply {i : Item} (h : i.apply o = some o') : i.Defined := by
  cases i with
  | other arg => trivial
  | last option =>
    cases option with
    | rate => cases h
    | serialDevice => trivial
    | baud => cases h
    | jsDevice => trivial
  | set option v => cases option <;> trivial

/-- **The last value wins.** -/
theorem applyAll_iff : applyAll items o = some o' ↔
    (∀ i ∈ items, i.Defined) ∧ Settings items o o' := by
  induction items generalizing o with
  | nil =>
    rw [applyAll, Option.some_inj, settings_nil]
    exact ⟨fun h => ⟨fun i hi => absurd hi List.not_mem_nil, h.symm⟩, fun h => h.2.symm⟩
  | cons i items ih =>
    rw [applyAll, Option.bind_eq_some_iff]
    constructor
    · rintro ⟨o₁, happly, hrest⟩
      have hdef := defined_of_apply happly
      obtain ⟨o₂, happly₂, hset⟩ := apply_defined hdef o
      obtain rfl := Option.some_inj.mp (happly.symm.trans happly₂)
      obtain ⟨hall, hsettings⟩ := ih.mp hrest
      refine ⟨fun j hj => ?_, (settings_cons hset).mpr hsettings⟩
      rcases List.mem_cons.mp hj with rfl | hj
      · exact hdef
      · exact hall j hj
    · rintro ⟨hall, hsettings⟩
      obtain ⟨o₁, happly, hset⟩ := apply_defined (hall i List.mem_cons_self) o
      refine ⟨o₁, happly, ih.mpr ⟨fun j hj => hall j (List.mem_cons_of_mem _ hj), ?_⟩⟩
      exact (settings_cons hset).mp hsettings

/-- **Parsing**: the program runs exactly when the arguments are items that are defined, with the
last value of each option. -/
theorem parse_iff : parse args o = .run o' ↔
    ∃ items, Reads args items ∧ (∀ i ∈ items, i.Defined) ∧ Settings items o o' := by
  constructor
  · intro h
    obtain ⟨items, hreads, happly⟩ := parse_reads h
    exact ⟨items, hreads, applyAll_iff.mp happly⟩
  · rintro ⟨items, hreads, hitems⟩
    exact reads_parse hreads (applyAll_iff.mpr hitems)

end Parse

/-! ## The port that the arguments open -/

/-- An `int` is the same again after it was held as a `uint32_t`. -/
theorem ofInt_toInt32 {n : ℤ} (h1 : -2147483648 ≤ n) (h2 : n < 2147483648) :
    (UInt32.ofInt n).toInt32.toInt = n := by
  have hpos : 0 ≤ n % 2 ^ 32 := Int.emod_nonneg _ (by decide)
  show (BitVec.ofNat 32 (n % 2 ^ 32).toNat).toInt = n
  rw [BitVec.toInt_eq_toNat_bmod, BitVec.toNat_ofNat, Int.natCast_emod, Int.toNat_of_nonneg hpos]
  show (n % ((2 ^ 32 : ℕ) : ℤ) % ((2 ^ 32 : ℕ) : ℤ)).bmod (2 ^ 32) = n
  rw [Int.emod_emod, Int.emod_bmod]
  exact Int.bmod_eq_of_le (by omega) (by omega)

/-- The two speeds that a port can be set to. -/
theorem speedOf_ofInt {n : ℤ} (h1 : -2147483648 ≤ n) (h2 : n < 2147483648) :
    speedOf (UInt32.ofInt n).toInt32 =
      if n = 57600 then some Termios.b57600
      else if n = 115200 then some Termios.b115200 else none := by
  have hn := ofInt_toInt32 h1 h2
  have heq : ∀ k : Int32, (UInt32.ofInt n).toInt32 = k ↔ n = k.toInt := by
    intro k
    rw [← Int32.toInt_inj, hn]
  rw [speedOf, if_congr (heq 57600) rfl rfl, if_congr (heq 115200) rfl rfl]
  rfl

/-- The baud rate that the items ask for. -/
def baudOf (items : List Item) : ℤ := (lastOf (Item.number? .baud) items).getD 115200

section Host

variable {items : List Item} {o : HostOptions}

theorem lastOf_some {α : Type} {f : Item → Option α} {a : α} (h : lastOf f items = some a) :
    ∃ i ∈ items, f i = some a := by
  have hmem : a ∈ items.filterMap f := List.mem_of_getLast? h
  obtain ⟨i, hi, hf⟩ := List.mem_filterMap.mp hmem
  exact ⟨i, hi, hf⟩

theorem lastOf_none {α : Type} {f : Item → Option α} :
    lastOf f items = none ↔ ∀ i ∈ items, f i = none := by
  rw [lastOf, List.getLast?_eq_none_iff, List.filterMap_eq_nil_iff]

theorem number?_eq (option : HostOption) (i : Item) :
    i.number? option = (i.value? option).bind (Option.map atoi) := by
  cases i with
  | set option' v =>
    rw [Item.number?, Item.value?]
    split_ifs <;> rfl
  | last option' =>
    rw [Item.value?]
    split_ifs <;> rfl
  | other arg => rfl

/-- The last number is that of the last value. -/
theorem lastOf_number {option : HostOption} {v : Arg}
    (h : lastOf (Item.value? option) items = some (some v)) :
    lastOf (Item.number? option) items = some (atoi v) := by
  induction items with
  | nil => cases h
  | cons i items ih =>
    rw [lastOf_cons] at h ⊢
    cases hrest : lastOf (Item.value? option) items with
    | some w =>
      rw [hrest, Option.some_or] at h
      obtain rfl := Option.some_inj.mp h
      rw [ih hrest, Option.some_or]
    | none =>
      rw [hrest, Option.none_or] at h
      have hnone : lastOf (Item.number? option) items = none := by
        refine lastOf_none.mpr fun j hj => ?_
        rw [number?_eq, lastOf_none.mp hrest j hj, Option.bind_none]
      rw [hnone, Option.none_or, number?_eq, h]
      rfl

/-- The baud rate is the number of the last text for it. -/
theorem baudOf_counts {v : Arg} {z : ℤ} (h : lastOf (Item.value? .baud) items = some (some v))
    (hz : Counts v z) : baudOf items = cutInt z := by
  rw [baudOf, lastOf_number h, atoi_counts hz]
  rfl

/-- The baud rate is an `int`, and what `main` holds. -/
theorem baudrate_eq (h : Settings items .defaults o) :
    o.baudrate = UInt32.ofInt (baudOf items) ∧
      -2147483648 ≤ baudOf items ∧ baudOf items < 2147483648 := by
  rw [h.baudrate, baudOf]
  cases hlast : lastOf (Item.number? .baud) items with
  | none => exact ⟨rfl, by decide, by decide⟩
  | some n =>
    obtain ⟨i, -, hi⟩ := lastOf_some hlast
    refine ⟨rfl, ?_⟩
    cases i with
    | last option => cases hi
    | other arg => cases hi
    | set option v =>
      rw [Item.number?] at hi
      split_ifs at hi
      obtain rfl := Option.some_inj.mp hi
      exact atoi_int v

/-- `connect` is what `UlisseClient_init` does before it allocates. -/
theorem connect_init (a : PortAnswers) (port : Termios) (baudrate : UInt32) (block : UlisseClient)
    (heap : Fin 4 → ℕ) :
    UlisseClient.init a.opened (serialSetInterfaceAttribs a.getAttribs a.setAttribs port
      baudrate.toInt32 0).1 block heap = .null ↔ (connect a port baudrate).1 = none := by
  rw [init_null_iff, connect]
  dsimp only
  split_ifs with ho ha h0
  · exact iff_of_true (Or.inl ho) rfl
  · exact iff_of_true (Or.inr (Or.inl ha)) rfl
  · exact iff_of_true (Or.inr (Or.inr h0)) rfl
  · refine iff_of_false ?_ (fun h => (by cases h))
    rintro (h | h | h)
    · exact ho h
    · exact ha h
    · exact h0 h

/-- **From the command line to the port**: the program goes on past its arguments exactly if they are
items that are defined, with the last value of each option.  Then `UlisseClient_init` goes on with
the port exactly if it was opened as another descriptor than 0, could be set, and the last baud rate
is 57600 or 115200, where a text counts as the number that it starts with or as 0; the port is raw
and blocking at that speed; and if it does not go on the port was left as it was, unless it has the
descriptor 0. -/
theorem host_connects (args : List Arg) (o : HostOptions) (a : PortAnswers) (port : Termios) :
    (parseMain args = .run o ↔ args ≠ [] ∧ ∃ items, Reads args items ∧
      (∀ i ∈ items, i.Defined) ∧ Settings items .defaults o) ∧
    ∀ items, Settings items .defaults o →
      ((connect a port o.baudrate).1.isSome ↔ 0 < a.opened ∧ a.getAttribs = true ∧
        a.setAttribs = true ∧ (baudOf items = 57600 ∨ baudOf items = 115200)) ∧
      (∀ v z, lastOf (Item.value? .baud) items = some (some v) → Counts v z →
        baudOf items = cutInt z) ∧
      (∀ block heap, UlisseClient.init a.opened (serialSetInterfaceAttribs a.getAttribs
        a.setAttribs port o.baudrate.toInt32 0).1 block heap = .null ↔
          (connect a port o.baudrate).1 = none) ∧
      (∀ fd, (connect a port o.baudrate).1 = some fd → fd = a.opened ∧
        Connected a port (connect a port o.baudrate).2
          (if baudOf items = 57600 then Termios.b57600 else Termios.b115200)) ∧
      ((connect a port o.baudrate).1 = none → a.opened ≠ 0 →
        (connect a port o.baudrate).2 = port) := by
  refine ⟨?_, fun items hsettings => ?_⟩
  · unfold parseMain
    split_ifs with hargs
    · exact iff_of_false (fun h => (by cases h)) fun h => h.1 hargs
    · rw [parse_iff]
      exact (and_iff_right hargs).symm
  · obtain ⟨hbaud, h1, h2⟩ := baudrate_eq hsettings
    have hspeed := speedOf_ofInt h1 h2
    rw [← hbaud] at hspeed
    have hinit := connect_init a port o.baudrate
    have hcounts : ∀ v z, lastOf (Item.value? .baud) items = some (some v) → Counts v z →
        baudOf items = cutInt z := fun v z h hz => baudOf_counts h hz
    rcases connect_cases a port o.baudrate with
      ⟨speed, ho, hget, hset, hsome, hfd, hconn⟩ | ⟨hfail, heq⟩
    · rw [hspeed] at hsome
      have hsome : (baudOf items = 57600 ∨ baudOf items = 115200) ∧
          speed = (if baudOf items = 57600 then Termios.b57600 else Termios.b115200) := by
        split_ifs at hsome with h576 h1152
        · exact ⟨Or.inl h576, (if_pos h576).symm ▸ (Option.some_inj.mp hsome).symm⟩
        · exact ⟨Or.inr h1152, (if_neg h576).symm ▸ (Option.some_inj.mp hsome).symm⟩
      obtain ⟨hknown, rfl⟩ := hsome
      rw [hfd] at hinit ⊢
      by_cases h0 : a.opened = 0
      · rw [if_pos h0] at hinit ⊢
        refine ⟨iff_of_false (fun h => (by cases h)) fun h => ?_, hcounts, hinit,
          fun fd h => (by cases h), fun _ hne => absurd h0 hne⟩
        exact absurd h.1 (by omega)
      · rw [if_neg h0] at hinit ⊢
        refine ⟨iff_of_true rfl ⟨by omega, hget, hset, hknown⟩, hcounts, hinit, fun fd h => ?_,
          fun h => (by cases h)⟩
        exact ⟨(Option.some_inj.mp h).symm, hconn⟩
    · rw [heq] at hinit ⊢
      refine ⟨iff_of_false (fun h => (by cases h)) ?_, hcounts, hinit, fun fd h => (by cases h),
        fun _ _ => rfl⟩
      rintro ⟨hpos, hget, hset, hknown⟩
      rcases hfail with h | h | h | h
      · omega
      · rw [hget] at h
        cases h
      · rw [hset] at h
        cases h
      · rw [hspeed] at h
        split_ifs at h with h576 h1152
        exact hknown.elim h576 h1152

end Host

end Ulisse
