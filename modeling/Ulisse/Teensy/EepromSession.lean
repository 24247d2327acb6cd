import Ulisse.Lib.Writes
import Ulisse.Teensy.Flash

/-!
# Teensy.EepromSession — the EEPROM over many calls

A session is any sequence of calls of `EEPROM_read` and `EEPROM_write`, with the flash controller
behind them.  What it does to the cells is said without it: a write of `size` bytes puts them in the
cells from `size` on, and every cell holds what was put in it last (`cellsAfter`).  The session gives
the callers what the cells hold at the time of each call, whatever the controller says
(`eeprom_session`).
-/

namespace Ulisse

open Device Prog ByteMem Writes Run
open EEPROM (clipped clipped_eq)

/-- A call, with the buffer of the caller. -/
inductive EepromCall where
  | read (dest : List UInt8) (src size : UInt16)
  | write (dest : UInt16) (buf : List UInt8) (size : UInt16)

/-- What the caller gets: the buffer behind a read, or nothing. -/
inductive EepromReturn where
  | buffer (bs : List UInt8)
  | done
  deriving DecidableEq

namespace EepromCall

/-- The caller's part: there is room for what is read, and there are `size` bytes to write. -/
def Sized : EepromCall → Prop
  | .read dest _ size => size.toNat ≤ dest.length
  | .write _ buf size => buf.length = size.toNat

/-- The bytes that a call puts in cells. -/
def cellWrites : EepromCall → List (Fin eepromSize × UInt8)
  | .read .. => []
  | .write _ buf size => (List.finRange eepromSize).filterMap fun i =>
    (if size.toNat ≤ i.val then buf[i.val - size.toNat]? else none).map fun b => (i, b)

end EepromCall

/-- The cells behind some calls: each holds what was put in it last. -/
def cellsAfter (ram : FlexRam) (calls : List EepromCall) : FlexRam := fun i =>
  (last (calls.flatMap EepromCall.cellWrites) i).getD (ram i)

/-- What the caller gets from a call when the cells hold `ram`. -/
inductive CallGives (ram : FlexRam) : EepromCall → EepromReturn → Prop where
  | write (dest : UInt16) (buf : List UInt8) (size : UInt16) :
    CallGives ram (.write dest buf size) .done
  | read {dest bs : List UInt8} {src size : UInt16} (hlen : bs.length = dest.length)
      (hread : ∀ j (h : src.toNat + j < eepromSize), j < size.toNat →
        bs[j]? = some (ram ⟨src.toNat + j, h⟩))
      (hrest : ∀ j, size.toNat ≤ j ∨ eepromSize ≤ src.toNat + j → bs[j]? = dest[j]?) :
      CallGives ram (.read dest src size) (.buffer bs)

/-- Each call was answered from the cells behind the calls before it. -/
structure SessionGives (ram : FlexRam) (calls : List EepromCall) (rs : List EepromReturn) : Prop where
  length : rs.length = calls.length
  each : ∀ k c, calls[k]? = some c →
    ∃ r, rs[k]? = some r ∧ CallGives (cellsAfter ram (calls.take k)) c r

namespace Flash

/-! ## The calls with the controller -/

/-- The loop of `EEPROM_read`, for at most `n` turns. -/
def readLoop : ℕ → FlexRam → UInt32 → UInt32 → List UInt8 → Flash (List UInt8)
  | 0, _, offset, stop, dest => if offset < stop then fail else pure dest
  | n + 1, ram, offset, stop, dest =>
    if offset < stop then
      if h : offset.toNat < eepromSize then
        match dest with
        | [] => fail
        | _ :: rest => do
          order (.access (.load 1 offset.toNat (ram ⟨offset.toNat, h⟩).toNat))
          let bs ← readLoop n ram (offset + 1) stop rest
          pure (ram ⟨offset.toNat, h⟩ :: bs)
      else fail
    else pure dest

/-- `EEPROM_read`, with the buffer behind it. -/
def read (ram : FlexRam) (dest : List UInt8) (src size : UInt16) : Flash (List UInt8) := do
  let offset : UInt32 := src.toUInt32
  let stop : UInt32 := offset + size.toUInt32
  ensureReady
  let stop : UInt32 := if 2048 < stop then 2048 else stop
  readLoop eepromSize ram offset stop dest

/-- A call, with the FlexRAM behind it. -/
def call (ram : FlexRam) : EepromCall → Flash (FlexRam × EepromReturn)
  | .read dest src size => do
    let bs ← read ram dest src size
    pure (ram, .buffer bs)
  | .write dest buf size => do
    let ram ← write ram dest buf size
    pure (ram, .done)

/-- One call after the other. -/
def session : List EepromCall → FlexRam → Flash (FlexRam × List EepromReturn)
  | [], ram => pure (ram, [])
  | c :: calls, ram => do
    let (ram, r) ← call ram c
    let (ram, rs) ← session calls ram
    pure (ram, r :: rs)

/-! ## One call -/

section Call

variable {ram ram' : FlexRam} {c : EepromCall} {calls calls' : List EepromCall}

theorem cellsAfter_append (ram : FlexRam) (calls calls' : List EepromCall) :
    cellsAfter ram (calls ++ calls') = cellsAfter (cellsAfter ram calls) calls' := by
  ext i
  rw [cellsAfter, cellsAfter, cellsAfter, List.flatMap_append, last_append]
  cases last (calls'.flatMap EepromCall.cellWrites) i <;> rfl

theorem cellsAfter_cons (ram : FlexRam) (c : EepromCall) (calls : List EepromCall) :
    cellsAfter ram (c :: calls) = cellsAfter (cellsAfter ram [c]) calls :=
  cellsAfter_append ram [c] calls

/-- A write puts what fits of its buffer in the cells from `size` on. -/
theorem cellsAfter_write (ram : FlexRam) (dest : UInt16) {buf : List UInt8} {size : UInt16}
    (hbuf : buf.length = size.toNat) :
    cellsAfter ram [.write dest buf size] =
      overwrite ram size.toNat (buf.take (clipped size.toNat size.toNat)) := by
  have hclip := clipped_eq size.toNat size.toNat
  ext i
  have hi : i.val < 2048 := i.isLt
  rw [cellsAfter, List.flatMap_cons, List.flatMap_nil, List.append_nil, EepromCall.cellWrites,
    last_each (List.nodup_finRange _), if_pos (List.mem_finRange i)]
  by_cases hlo : size.toNat ≤ i.val
  · rw [if_pos hlo]
    by_cases hin : i.val - size.toNat < (buf.take (clipped size.toNat size.toNat)).length
    · rw [overwrite_inside hlo hin, List.getElem_take]
      rw [List.length_take] at hin
      rw [List.getElem?_eq_getElem (by omega), Option.getD_some]
    · rw [List.length_take] at hin
      rw [overwrite_outside (by rw [List.length_take]; omega),
        List.getElem?_eq_none (by omega), Option.getD_none]
  · rw [if_neg hlo, overwrite_outside (Or.inl (by omega)), Option.getD_none]

/-- The accesses of a write are those of its loop. -/
theorem write_accesses (ram : FlexRam) (dest : UInt16) {buf : List UInt8} {size : UInt16}
    (hbuf : buf.length = size.toNat) :
    ∃ as, EEPROM.write ram dest buf size = some (cellsAfter ram [.write dest buf size], as) ∧
      Replays ram as (cellsAfter ram [.write dest buf size]) ∧ StoresChange ram as := by
  obtain ⟨as, hwrite⟩ := EEPROM.write_eq ram dest hbuf.ge
  rw [← cellsAfter_write ram dest hbuf] at hwrite
  refine ⟨as, hwrite, ?_⟩
  rw [EEPROM.write_clips] at hwrite
  split_ifs at hwrite with hend
  · obtain ⟨hram, rfl⟩ := Prod.mk.inj (Option.some_inj.mp hwrite)
    rw [← hram]
    exact ⟨⟨[], rfl⟩, Along.nil⟩
  · obtain ⟨hcells, hle⟩ := clipSize_fits (UInt32.not_le.mp hend) size
    generalize clipSize size.toUInt32 size = left at hcells hle hwrite
    obtain ⟨t, as', hloop, -, hreplays, -, hchange⟩ :=
      writeLoop_accesses (s := ⟨ram, size.toUInt32, left, buf⟩) (Nat.le_refl left.toNat)
        ⟨hcells, hle.trans hbuf.ge⟩
    rw [hloop] at hwrite
    obtain ⟨hram, rfl⟩ := Prod.mk.inj (Option.some_inj.mp hwrite)
    rw [← hram]
    exact ⟨hreplays, hchange⟩

theorem load_byte (ram : FlexRam) {i : ℕ} (hi : i < eepromSize) :
    load ram 1 i = some (ram ⟨i, hi⟩).toNat := by
  have hacc : Accessible eepromSize 1 i := ⟨Nat.mod_one i, hi⟩
  rw [load, dif_pos hacc]
  rfl

/-- The accesses of a read are loads, of what is there. -/
theorem readLoop_expects {n : ℕ} {offset stop : UInt32} {dest bs : List UInt8}
    (h : EEPROM.readLoop n ram offset stop dest = some bs) :
    ∃ as, Replays ram as ram ∧ StoresChange ram as ∧ Live (readLoop n ram offset stop dest) ∧
      ∀ rest, wp expects (readLoop n ram offset stop dest) (fun bs' m => bs' = bs ∧ m = rest)
        (as ++ rest) := by
  induction n generalizing offset dest bs with
  | zero =>
    rw [EEPROM.readLoop] at h
    rw [readLoop]
    split_ifs at h with hstop
    rw [if_neg hstop]
    exact ⟨[], ⟨[], rfl⟩, Along.nil, trivial, fun rest => ⟨Option.some_inj.mp h, rfl⟩⟩
  | succ n ih =>
    rw [EEPROM.readLoop] at h
    rw [readLoop]
    split_ifs at h with hstop hin
    · rw [if_pos hstop, dif_pos hin]
      cases dest with
      | nil => cases h
      | cons d dest =>
        obtain ⟨bs', hrest, rfl⟩ := Option.map_eq_some_iff.mp h
        obtain ⟨as, hreplays, hchange, hlive, hwp⟩ := ih hrest
        have hload : accessStep ram (.load 1 offset.toNat (ram ⟨offset.toNat, hin⟩).toNat) =
            some (ram, ()) := if_pos (load_byte ram hin)
        refine ⟨.load 1 offset.toNat (ram ⟨offset.toNat, hin⟩).toNat :: as, ?_, ?_, ?_, ?_⟩
        · obtain ⟨os, hrun⟩ := hreplays
          exact ⟨() :: os, by rw [run_cons_of hload, hrun]; rfl⟩
        · refine Along.cons trivial fun t o hstep => ?_
          obtain ⟨rfl, -⟩ := result_unique hload hstep
          exact hchange
        · exact hlive.bind fun _ => trivial
        · intro rest
          refine wp_expects_access _ (wp_seq (hwp rest) ?_)
          rintro bs'' m ⟨rfl, rfl⟩
          exact ⟨rfl, rfl⟩
    · rw [if_neg hstop]
      exact ⟨[], ⟨[], rfl⟩, Along.nil, trivial, fun rest => ⟨Option.some_inj.mp h, rfl⟩⟩

/-- What a read gives. -/
theorem read_gives (ram : FlexRam) {dest : List UInt8} (src : UInt16) {size : UInt16}
    (hdest : size.toNat ≤ dest.length) :
    ∃ bs, EEPROM.read ram dest src size = some bs ∧
      CallGives ram (.read dest src size) (.buffer bs) := by
  have hclip := clipped_eq src.toNat size.toNat
  have hcell : ∀ j : Fin (clipped src.toNat size.toNat), src.toNat + j.val < eepromSize := by
    intro j
    have hj := j.isLt
    show src.toNat + j.val < 2048
    omega
  have hlen : (List.ofFn fun j => ram ⟨_, hcell j⟩).length = clipped src.toNat size.toNat :=
    List.length_ofFn
  refine ⟨_, EEPROM.read_eq hlen (fun j hj => ?_) (by omega), .read ?_ ?_ ?_⟩
  · rw [hlen] at hj
    refine ⟨hcell ⟨j, hj⟩, ?_⟩
    rw [List.getElem_ofFn]
  · rw [List.length_append, List.length_drop]
    omega
  · intro j h hj
    have h : src.toNat + j < 2048 := h
    rw [List.getElem?_append_left (by omega), List.getElem?_ofFn, dif_pos (by omega)]
  · intro j hj
    have hj : size.toNat ≤ j ∨ 2048 ≤ src.toNat + j := hj
    rw [List.getElem?_append_right (by omega), List.getElem?_drop, hlen,
      Nat.add_sub_cancel' (by omega)]

/-- What a call does, whatever the controller says. -/
structure Does (ram : FlexRam) (c : EepromCall) (r : EepromReturn) (as : List Access) : Prop where
  gives : CallGives ram c r
  replays : Replays ram as (cellsAfter ram [c])
  changes : StoresChange ram as
  live : Live (call ram c)
  program : ∀ rest, wp expects (call ram c)
    (fun x m => x = (cellsAfter ram [c], r) ∧ m = rest) (as ++ rest)

/-- **Each call** is done. -/
theorem call_does (ram : FlexRam) (h : c.Sized) : ∃ r as, Does ram c r as := by
  cases c with
  | read dest src size =>
    obtain ⟨bs, hread, hgives⟩ := read_gives ram src h
    obtain ⟨as, hreplays, hchange, hlive, hwp⟩ := readLoop_expects hread
    refine ⟨.buffer bs, as, hgives, hreplays, hchange, ?_, fun rest => ?_⟩
    · exact (ensureReady_live.bind fun _ => hlive).bind fun _ => trivial
    · have hprogram : wp expects (read ram dest src size) (fun bs' m => bs' = bs ∧ m = rest)
          (as ++ rest) := by
        refine wp_seq (wp_expects_silent ensureReady_emits) ?_
        rintro - m rfl
        exact hwp rest
      refine wp_seq hprogram ?_
      rintro bs' m ⟨rfl, rfl⟩
      exact ⟨rfl, rfl⟩
  | write dest buf size =>
    obtain ⟨as, hwrite, hreplays, hchange⟩ := write_accesses ram dest h
    refine ⟨.done, as, .write dest buf size, hreplays, hchange, ?_, fun rest => ?_⟩
    · exact (write_live hwrite).bind fun _ => trivial
    · refine wp_seq (write_expects hwrite rest) ?_
      rintro ram' m ⟨rfl, rfl⟩
      exact ⟨rfl, rfl⟩

end Call

/-! ## Sessions -/

section Session

variable {ram : FlexRam} {c : EepromCall} {calls : List EepromCall} {r : EepromReturn}
  {rs : List EepromReturn}

theorem sessionGives_cons (h : CallGives ram c r)
    (hrest : SessionGives (cellsAfter ram [c]) calls rs) :
    SessionGives ram (c :: calls) (r :: rs) := by
  obtain ⟨hlen, heach⟩ := hrest
  refine ⟨congrArg Nat.succ hlen, fun k c' hk => ?_⟩
  cases k with
  | zero =>
    obtain rfl := Option.some_inj.mp hk
    exact ⟨r, rfl, h⟩
  | succ k =>
    rw [List.take_succ_cons, cellsAfter_cons]
    exact heach k c' hk

theorem session_live (h : ∀ c ∈ calls, c.Sized) : Live (session calls ram) := by
  induction calls generalizing ram with
  | nil => trivial
  | cons c calls ih =>
    obtain ⟨hc, hcalls⟩ := List.forall_mem_cons.mp h
    obtain ⟨_, _, hdoes⟩ := call_does ram hc
    exact hdoes.live.bind fun _ => (ih hcalls).bind fun _ => trivial

/-- **One call after the other**: each finds the cells behind the ones before it. -/
theorem session_does (ram : FlexRam) (h : ∀ c ∈ calls, c.Sized) :
    ∃ rs as, SessionGives ram calls rs ∧ Replays ram as (cellsAfter ram calls) ∧
      StoresChange ram as ∧ ∀ rest, wp expects (session calls ram)
        (fun x m => x = (cellsAfter ram calls, rs) ∧ m = rest) (as ++ rest) := by
  induction calls generalizing ram with
  | nil =>
    exact ⟨[], [], ⟨rfl, fun k c hk => absurd hk (by simp)⟩, ⟨[], rfl⟩, Along.nil,
      fun rest => ⟨rfl, rfl⟩⟩
  | cons c calls ih =>
    obtain ⟨hc, hcalls⟩ := List.forall_mem_cons.mp h
    obtain ⟨r, as, hdoes⟩ := call_does ram hc
    obtain ⟨rs, as', hgives, hreplays, hchange, hwp⟩ := ih (cellsAfter ram [c]) hcalls
    rw [cellsAfter_cons]
    refine ⟨r :: rs, as ++ as', sessionGives_cons hdoes.gives hgives,
      hdoes.replays.append hreplays, hdoes.changes.append hdoes.replays hchange, fun rest => ?_⟩
    rw [List.append_assoc]
    refine wp_seq (hdoes.program _) ?_
    rintro x m ⟨rfl, rfl⟩
    refine wp_seq (hwp rest) ?_
    rintro x m ⟨rfl, rfl⟩
    exact ⟨rfl, rfl⟩

/-- No call puts anything in the cell 0. -/
theorem cell_zero (ram : FlexRam) (h : ∀ c ∈ calls, c.Sized) :
    cellsAfter ram calls ⟨0, by decide⟩ = ram ⟨0, by decide⟩ := by
  induction calls generalizing ram with
  | nil => rfl
  | cons c calls ih =>
    obtain ⟨hc, hcalls⟩ := List.forall_mem_cons.mp h
    rw [cellsAfter_cons, ih _ hcalls]
    cases c with
    | read dest src size => rfl
    | write dest buf size =>
      rw [cellsAfter_write ram dest hc]
      apply overwrite_outside
      -- a write that starts at the cell 0 has no bytes
      show 0 < size.toNat ∨ _
      rw [List.length_take, hc]
      omega

/-- **The EEPROM over a session**: one sequence of accesses, in which every load finds what was stored
there last and every store changes its unit, is followed whatever the controller says, as far as the
session has got; when it ends each cell holds the byte that was put in it last, a write of `size`
bytes putting them in the cells from `size` on, and each read got what the cells held at its time; it
can always end, and it leaves the cell 0 as it was. -/
theorem eeprom_session (h : ∀ c ∈ calls, c.Sized) :
    ∃ as rs, Replays ram as (cellsAfter ram calls) ∧ StoresChange ram as ∧
      SessionGives ram calls rs ∧ cellsAfter ram calls ⟨0, by decide⟩ = ram ⟨0, by decide⟩ ∧
      ∀ es p, Leads (session calls ram) es p → accesses es <+: as ∧
        (∀ x, p = ret x → accesses es = as ∧ x = (cellsAfter ram calls, rs)) ∧
        ∃ es' x, Leads (session calls ram) (es ++ es') (ret x) := by
  obtain ⟨rs, as, hgives, hreplays, hchange, hwp⟩ := session_does ram h
  have hwp := hwp []
  rw [List.append_nil] at hwp
  refine ⟨as, rs, hreplays, hchange, hgives, cell_zero ram h, fun es p hrun => ?_⟩
  obtain ⟨m, hm, hp⟩ := wp_sound hwp hrun
  have hseen := watched_expects hm
  refine ⟨⟨m, hseen.symm⟩, ?_, (session_live h).goes_on hrun⟩
  rintro x rfl
  obtain ⟨hx, rfl⟩ := hp
  rw [hseen, List.append_nil]
  exact ⟨rfl, hx⟩

/-- Two bytes that are meant for the cell 0 are put in those from 2 on, and read there. -/
theorem eeprom_session_two : ∃ ram',
    Leads (session [.write 0 [7, 9] 2, .read [1, 1, 1] 2 3] fun _ => 0) [.asked ftflFcnfg 0x01,
      .told (.access (.load 2 2 0)), .asked ftflFstat 0, .told (.access (.store 2 2 0x907)),
      .asked ftflFcnfg 0x01, .asked ftflFcnfg 0x01, .told (.access (.load 1 2 7)),
      .told (.access (.load 1 3 9)), .told (.access (.load 1 4 0))]
      (ret (ram', [.done, .buffer [7, 9, 0]])) ∧
    Replays (fun _ => 0) [.load 2 2 0, .store 2 2 0x907, .load 1 2 7, .load 1 3 9, .load 1 4 0]
      ram' ∧
    SessionGives (fun _ => 0) [.write 0 [7, 9] 2, .read [1, 1, 1] 2 3]
      [.done, .buffer [7, 9, 0]] := by
  have hrun : ((Run.run step (session [.write 0 [7, 9] 2, .read [1, 1, 1] 2 3] fun _ => 0)
      [.asked ftflFcnfg 0x01, .told (.access (.load 2 2 0)), .asked ftflFstat 0,
        .told (.access (.store 2 2 0x907)), .asked ftflFcnfg 0x01, .asked ftflFcnfg 0x01,
        .told (.access (.load 1 2 7)), .told (.access (.load 1 3 9)),
        .told (.access (.load 1 4 0))]).bind fun r => r.1.result?).map Prod.snd =
      some [.done, .buffer [7, 9, 0]] := by decide +kernel
  obtain ⟨⟨ram', rs'⟩, hleads, rfl⟩ := leads_result hrun
  have hsized : ∀ c ∈ [EepromCall.write 0 [7, 9] 2, .read [1, 1, 1] 2 3], c.Sized :=
    List.forall_mem_cons.mpr ⟨rfl, List.forall_mem_singleton.mpr (Nat.le_refl 3)⟩
  obtain ⟨as, rs, hreplays, -, hgives, -, hall⟩ := @eeprom_session (fun _ => 0) _ hsized
  obtain ⟨hacc, hx⟩ := (hall _ _ hleads).2.1 _ rfl
  obtain ⟨rfl, rfl⟩ := Prod.mk.inj hx
  rw [← hacc] at hreplays
  exact ⟨_, hleads, hreplays, hgives⟩

end Session

end Flash

end Ulisse
