import Mathlib.Data.List.Forall2
import Ulisse.Handler.Rx
import Ulisse.Lib.Framing

/-!
# Handler.RxRefine — the receiver refines the frame hunter

`rxScheme` reads the operation table as a framing scheme: types are tags, sizes are length symbols.
`RxAt` relates the handler's fields and buffer to a phase of the hunter, and one received byte is
one step of it (`rxByte_sim`), so that every run of the receiver is a trace (`rxRun_trace`).  The
receiver is defined as long as the buffer has room for what was announced (`rxByte_defined`).
-/

namespace Ulisse

open BlockMem Run Framing

variable {β : Type} {len : β → ℕ}

/-- The operation table as a framing scheme. -/
def rxScheme (operations : Fin packetTypeMax → Option (PacketOperations len)) :
    Scheme UInt8 (PacketOperations len) where
  sync₀ := 0xAA
  sync₁ := 0x55
  stop := 0xFF
  sync_ne := by decide
  look := lookup operations
  accept op c :=
    if op.size ≠ packetSizeAny ∧ op.size ≠ c then none else some (payloadLength c)
  accept_pos := by
    intro op c n h
    split_ifs at h
    exact Option.some_inj.mp h ▸ payloadLength_pos c

/-- The buffer behind `rx_current_packet` starts with the rebuilt header and the bytes `got`, and
the next byte goes behind them. -/
structure BufferAt (s : RxState len) (op : PacketOperations len) (p : Ptr β) (got : List UInt8) :
    Prop where
  packet : s.h.rxCurrentPacket = some p
  buffer : s.h.rxBuffer = some p
  bufferEnd : s.h.rxBufferEnd = some (p.add (2 + got.length))
  bytes : (view s.mem p).take (2 + got.length) = op.type :: op.size :: got

/-- The fields of the handler in a phase. -/
def FieldsAt (s : RxState len) : Phase UInt8 (PacketOperations len) → Prop
  | .hunt => s.h.rxFn = .rxAA
  | .sync => s.h.rxFn = .rx55
  | .tag => s.h.rxFn = .rxType
  | .len _ op => s.h.rxFn = .rxSize ∧ s.h.rxCurrentOp = some op
  | .body _ op _ need got => s.h.rxFn = .rxPayload ∧ s.h.rxCurrentOp = some op ∧
      s.h.rxBytesToRead.toNat = need % 256 ∧ ∃ p, BufferAt s op p got
  | .stop _ op _ got => s.h.rxFn = .rxChecksum ∧ s.h.rxCurrentOp = some op ∧
      ∃ p, BufferAt s op p got

/-- **Representation**: the state `s` with the table `operations` is in phase `ph`. -/
structure RxAt (operations : Fin packetTypeMax → Option (PacketOperations len)) (s : RxState len)
    (ph : Phase UInt8 (PacketOperations len)) : Prop where
  table : s.h.operations = operations
  wf : (rxScheme operations).Wf ph
  fields : FieldsAt s ph

/-- The status that answers an event. -/
def statusOf : Event UInt8 (PacketOperations len) → PacketStatus
  | .lost => .unsync
  | .sync₀ => .syncAA
  | .sync₁ => .sync55
  | .badTag t => if t.toNat < packetTypeMax then .unknownType else .unsync
  | .tag => .syncType
  | .badLen => .invalidSize
  | .refused => .rxBufferError
  | .len => .syncSize
  | .body => .syncPayload
  | .bodyEnd => .syncPayloadComplete
  | .badStop => .checksumError
  | .done _ _ => .syncChecksum

/-- What an answer says about an event: its status, and a call of `on_recive_fn` exactly for a
completed frame, with a buffer that starts with the rebuilt header and the payload. -/
structure Answers (r : RxReturn len) (e : Event UInt8 (PacketOperations len)) : Prop where
  status : r.status = statusOf e
  quiet : e.done? = none → r.calls.filterMap Call.delivery? = []
  done : ∀ op f, e = .done op f → ∃ p buffer,
    buffer.take (2 + f.body.length) = op.type :: op.size :: f.body ∧
    r.calls = if op.onReciveFn.isSome then [.onRecive op p buffer] else []

/-- The buffer has room for the announced payload. -/
def RoomAt (s : RxState len) : Phase UInt8 (PacketOperations len) → Prop
  | .body _ _ _ need got => ∀ p, s.h.rxCurrentPacket = some p →
      Room len p (2 + got.length + need)
  | _ => True

/-- `initialize_buffer_fn` returns null or a buffer of at least the operation's size. -/
def PacketOperations.BufferFits (op : PacketOperations len) : Prop :=
  ∀ m p, (op.initializeBuffer m).1 = some p → Room len p op.size.toNat

/-- `initialize_buffer_fn` never returns null. -/
def PacketOperations.NeverRefuses (op : PacketOperations len) : Prop :=
  ∀ m, (op.initializeBuffer m).1 ≠ none

/-- An operation that a phase waits to hear the size of has a buffer for every size it accepts. -/
def SizesFit (operations : Fin packetTypeMax → Option (PacketOperations len)) :
    Phase UInt8 (PacketOperations len) → Prop
  | .len _ op => op.BufferFits ∧
      ∀ c n, (rxScheme operations).accept op c = some n → 2 + n ≤ op.size.toNat
  | _ => True

/-! ## One byte -/

section Step

variable {operations : Fin packetTypeMax → Option (PacketOperations len)} {s s' : RxState len}
  {ph : Phase UInt8 (PacketOperations len)} {c : UInt8} {r : RxReturn len}

theorem Answers.of_quiet {e : Event UInt8 (PacketOperations len)} (hs : r.status = statusOf e)
    (hq : r.calls.filterMap Call.delivery? = []) (he : e.done? = none) : Answers r e := by
  refine ⟨hs, fun _ => hq, ?_⟩
  rintro op f rfl
  cases he

theorem accept_of_ok {op : PacketOperations len}
    (h : ¬ (op.size ≠ packetSizeAny ∧ op.size ≠ c)) :
    (rxScheme operations).accept op c = some (payloadLength c) := by
  show (if _ then _ else _) = _
  rw [if_neg h]

theorem accept_of_bad {op : PacketOperations len} (h : op.size ≠ packetSizeAny ∧ op.size ≠ c) :
    (rxScheme operations).accept op c = none := by
  show (if _ then _ else _) = _
  rw [if_pos h]

theorem rxAA_sim (hr : RxAt operations s .hunt) (he : rxAA s c = some (s', r)) :
    RxAt operations s' ((rxScheme operations).step true .hunt c).1 ∧
      Answers r ((rxScheme operations).step true .hunt c).2 := by
  have htab := hr.table
  unfold rxAA at he
  split_ifs at he with hc
  · obtain ⟨rfl, rfl⟩ := result_unique rfl he
    have hstep : (rxScheme operations).step true .hunt c = (.sync, .sync₀) := if_pos hc
    rw [hstep]
    exact ⟨⟨htab, trivial, rfl⟩, .of_quiet rfl rfl rfl⟩
  · obtain ⟨rfl, rfl⟩ := result_unique rfl he
    have hstep : (rxScheme operations).step true .hunt c = (.hunt, .lost) := if_neg hc
    rw [hstep]
    exact ⟨⟨htab, trivial, hr.fields⟩, .of_quiet rfl rfl rfl⟩

theorem rx55_sim (hr : RxAt operations s .sync) (he : rx55 s c = some (s', r)) :
    RxAt operations s' ((rxScheme operations).step true .sync c).1 ∧
      Answers r ((rxScheme operations).step true .sync c).2 := by
  have htab := hr.table
  unfold rx55 at he
  split_ifs at he with hc
  · obtain ⟨rfl, rfl⟩ := result_unique rfl he
    have hstep : (rxScheme operations).step true .sync c = (.tag, .sync₁) := if_pos hc
    rw [hstep]
    exact ⟨⟨htab, trivial, rfl⟩, .of_quiet rfl rfl rfl⟩
  · obtain ⟨rfl, rfl⟩ := result_unique rfl he
    have hstep : (rxScheme operations).step true .sync c = (.hunt, .lost) := if_neg hc
    rw [hstep]
    exact ⟨⟨htab, trivial, rfl⟩, .of_quiet rfl rfl rfl⟩

theorem rxType_sim (hr : RxAt operations s .tag) (he : rxType s c = some (s', r)) :
    RxAt operations s' ((rxScheme operations).step true .tag c).1 ∧
      Answers r ((rxScheme operations).step true .tag c).2 := by
  have htab := hr.table
  have hw := (rxScheme operations).step_wf (g := true) (c := c) hr.wf
  unfold rxType at he
  split_ifs at he with hc
  · have hl : (rxScheme operations).look c = s.h.operations ⟨c.toNat, hc⟩ := by
      rw [htab]
      exact lookup_of_lt _ hc
    cases ho : s.h.operations ⟨c.toNat, hc⟩ with
    | none =>
      rw [ho] at he hl
      obtain ⟨rfl, rfl⟩ := result_unique rfl he
      simp only [Scheme.step, hl] at hw ⊢
      exact ⟨⟨htab, hw, rfl⟩, .of_quiet (if_pos hc).symm rfl rfl⟩
    | some op =>
      rw [ho] at he hl
      obtain ⟨rfl, rfl⟩ := result_unique rfl he
      simp only [Scheme.step, hl] at hw ⊢
      exact ⟨⟨htab, hw, rfl, rfl⟩, .of_quiet rfl rfl rfl⟩
  · have hl : (rxScheme operations).look c = none := dif_neg hc
    obtain ⟨rfl, rfl⟩ := result_unique rfl he
    simp only [Scheme.step, hl] at hw ⊢
    exact ⟨⟨htab, hw, rfl⟩, .of_quiet (if_neg hc).symm rfl rfl⟩

theorem rxChecksum_sim {t x : UInt8} {op : PacketOperations len} {got : List UInt8}
    (hr : RxAt operations s (.stop t op x got)) (he : rxChecksum s c = some (s', r)) :
    RxAt operations s' ((rxScheme operations).step true (.stop t op x got) c).1 ∧
      Answers r ((rxScheme operations).step true (.stop t op x got) c).2 := by
  have htab := hr.table
  obtain ⟨hfn, ho, p, hb⟩ := hr.fields
  -- what the operation is called with
  have hdone : ∀ q : RxReturn len, q.status = .syncChecksum →
      q.calls = (if op.onReciveFn.isSome then [.onRecive op (some p) (view s.mem p)] else []) →
      Answers q (.done op ⟨t, x, got⟩) := by
    intro q hstatus hcalls
    refine ⟨hstatus, fun h => (by cases h), ?_⟩
    intro op' f hev
    simp only [Event.done.injEq] at hev
    obtain ⟨rfl, rfl⟩ := hev
    exact ⟨some p, view s.mem p, hb.bytes, hcalls⟩
  simp only [rxChecksum, ho] at he
  split_ifs at he with hc
  · have hstep : (rxScheme operations).step true (.stop t op x got) c =
        (.hunt, .done op ⟨t, x, got⟩) := if_pos hc
    rw [hstep]
    cases hon : op.onReciveFn with
    | none =>
      rw [hon] at he
      obtain ⟨rfl, rfl⟩ := result_unique rfl he
      exact ⟨⟨htab, trivial, rfl⟩, hdone _ rfl (by rw [hon]; rfl)⟩
    | some f =>
      rw [hon, hb.packet] at he
      obtain ⟨rfl, rfl⟩ := result_unique rfl he
      exact ⟨⟨htab, trivial, rfl⟩, hdone _ rfl (by rw [hon]; rfl)⟩
  · obtain ⟨rfl, rfl⟩ := result_unique rfl he
    have hstep : (rxScheme operations).step true (.stop t op x got) c = (.hunt, .badStop) :=
      if_neg hc
    rw [hstep]
    exact ⟨⟨htab, trivial, rfl⟩, .of_quiet rfl rfl rfl⟩

variable [DecidableEq β]

/-- The state that an accepted size byte leads to. -/
theorem rxSize_started {op : PacketOperations len} (ho : s.h.rxCurrentOp = some op)
    (hok : ¬ (op.size ≠ packetSizeAny ∧ op.size ≠ c)) {p : Ptr β}
    (hp : (op.initializeBuffer s.mem).1 = some p)
    (he : rxSize s c = some (s', r)) :
    Room len p 2 ∧
    s' = ⟨{ s.h with
        rxCurrentPacket := some p
        rxBytesToRead := bytesToRead c
        rxBuffer := some p
        rxBufferEnd := some (p.add 2)
        rxFn := .rxPayload },
      write (write (op.initializeBuffer s.mem).2 p op.type) (p.add 1) op.size⟩ ∧
    r = ⟨.syncSize, [.initializeBuffer op]⟩ := by
  rcases rxSize_cases ho he with ⟨hbad, -⟩ | ⟨-, ⟨hnone, -⟩ | hstart⟩
  · exact absurd hbad hok
  · rw [hp] at hnone
    cases hnone
  · obtain ⟨q, m, m', hq, h1, h2, rfl, rfl⟩ := hstart
    obtain rfl : q = p := Option.some_inj.mp (hq.symm.trans hp)
    obtain ⟨rfl, -⟩ := store_some h1
    obtain ⟨rfl, hroom⟩ := store_some h2
    refine ⟨?_, rfl, rfl⟩
    unfold Room at *
    rw [Ptr.add_block, Ptr.add_off] at hroom
    omega

theorem rxSize_defined {op : PacketOperations len} (ho : s.h.rxCurrentOp = some op)
    (hroom : ∀ p, (op.initializeBuffer s.mem).1 = some p →
      ¬ (op.size ≠ packetSizeAny ∧ op.size ≠ c) → Room len p 2) :
    ∃ s' r, rxSize s c = some (s', r) := by
  unfold rxSize
  rw [ho]
  by_cases hok : op.size ≠ packetSizeAny ∧ op.size ≠ c
  · simp only [if_pos hok]
    exact ⟨_, _, rfl⟩
  · simp only [if_neg hok]
    cases hi : op.initializeBuffer s.mem with
    | mk q m =>
      rw [hi] at hroom
      cases q with
      | none => exact ⟨_, _, rfl⟩
      | some p =>
        have hr := hroom p rfl hok
        have h1 : store m p op.type = some (write m p op.type) :=
          store_of_room (k := 0) (hr.mono (by omega))
        have h2 : store (write m p op.type) (p.add 1) op.size =
            some (write (write m p op.type) (p.add 1) op.size) := store_of_room (k := 1) hr
        simp only [Option.bind_eq_bind, h1, h2, Option.bind_some]
        exact ⟨_, _, rfl⟩

/-- **Progress**: with room for what was announced, a received byte has a defined effect. -/
theorem rxByte_defined (hr : RxAt operations s ph) (hroom : RoomAt s ph)
    (hfit : SizesFit operations ph) (c : UInt8) : ∃ s' r, rxByte s c = some (s', r) := by
  have hf := hr.fields
  cases ph with
  | hunt =>
    simp only [rxByte, show s.h.rxFn = .rxAA from hf, rxAA]
    split_ifs <;> exact ⟨_, _, rfl⟩
  | sync =>
    simp only [rxByte, show s.h.rxFn = .rx55 from hf, rx55]
    split_ifs <;> exact ⟨_, _, rfl⟩
  | tag =>
    simp only [rxByte, show s.h.rxFn = .rxType from hf, rxType]
    split_ifs with hc
    · cases s.h.operations ⟨c.toNat, hc⟩ <;> exact ⟨_, _, rfl⟩
    · exact ⟨_, _, rfl⟩
  | len t op =>
    obtain ⟨hfn, ho⟩ := hf
    simp only [rxByte, hfn]
    refine rxSize_defined ho fun p hp hok => ?_
    have hn := hfit.2 c _ (accept_of_ok hok)
    exact (hfit.1 s.mem p hp).mono (by omega)
  | body t op x need got =>
    obtain ⟨hfn, -, -, p, hb⟩ := hf
    have hpos : 0 < need := hr.wf.2.2
    have hstore := store_of_room (m := s.mem) (x := c) (k := 2 + got.length)
      ((hroom p hb.packet).mono (k := 2 + got.length + 1) (by omega))
    simp only [rxByte, hfn, rxPayload, hb.bufferEnd, Option.bind_eq_bind, hstore, Option.bind_some]
    split_ifs <;> exact ⟨_, _, rfl⟩
  | stop t op x got =>
    obtain ⟨hfn, ho, -⟩ := hf
    simp only [rxByte, hfn, rxChecksum, ho]
    split_ifs
    · cases op.onReciveFn <;> exact ⟨_, _, rfl⟩
    · exact ⟨_, _, rfl⟩

/-- The step is taken with room granted, unless an operation asked for its buffer refuses. -/
def Grants (s : RxState len) (ph : Phase UInt8 (PacketOperations len)) (g : Bool) : Prop :=
  g = true ∨ ∃ t op, ph = .len t op ∧ (op.initializeBuffer s.mem).1 = none

/-- A received payload byte goes behind the ones before it. -/
theorem rxPayload_stored {op : PacketOperations len} {t x : UInt8} {need : ℕ} {got : List UInt8}
    (hr : RxAt operations s (.body t op x need got)) (he : rxPayload s c = some (s', r)) :
    ∃ p, BufferAt s op p got ∧ Room len p (2 + got.length + 1) ∧
      s' = ⟨{ s.h with
          rxBufferEnd := some (p.add (2 + got.length + 1))
          rxBytesToRead := s.h.rxBytesToRead - 1
          rxFn := if need = 1 then .rxChecksum else .rxPayload },
        write s.mem (p.add (2 + got.length)) c⟩ ∧
      r = ⟨if need = 1 then .syncPayloadComplete else .syncPayload, []⟩ := by
  obtain ⟨hfn, -, hn, p, hb⟩ := hr.fields
  obtain ⟨-, hacc, hpos⟩ := hr.wf
  have hneed : need ≤ 256 := by
    have hle : got.length + need ≤ 256 := by
      simp only [rxScheme] at hacc
      split_ifs at hacc
      rw [← Option.some_inj.mp hacc]
      exact payloadLength_le x
    omega
  have hlast : s.h.rxBytesToRead - 1 = 0 ↔ need = 1 := by
    have hlt := s.h.rxBytesToRead.toNat_lt
    rw [← UInt8.toNat_inj, UInt8.toNat_sub]
    simp only [UInt8.toNat_one, UInt8.toNat_zero]
    omega
  simp only [rxPayload, hb.bufferEnd, Option.bind_eq_bind, Option.bind_eq_some_iff] at he
  obtain ⟨m, hs, he⟩ := he
  obtain ⟨rfl, hroom⟩ := store_some hs
  refine ⟨p, hb, ?_, ?_⟩
  · unfold Room at *
    simp only [Ptr.add_block, Ptr.add_off] at hroom
    omega
  · by_cases h1 : need = 1
    · rw [if_pos (hlast.mpr h1)] at he
      simp only [Option.pure_def, Option.some.injEq, Prod.mk.injEq] at he
      rw [if_pos h1, if_pos h1]
      exact ⟨he.1.symm, he.2.symm⟩
    · rw [if_neg (fun h => h1 (hlast.mp h))] at he
      simp only [Option.pure_def, Option.some.injEq, Prod.mk.injEq] at he
      rw [if_neg h1, if_neg h1, ← hfn]
      exact ⟨he.1.symm, he.2.symm⟩

/-- The stored byte extends what is known of the buffer. -/
theorem BufferAt.stored {op : PacketOperations len} {p : Ptr β} {got : List UInt8}
    (hb : BufferAt s op p got) (hroom : Room len p (2 + got.length + 1)) :
    (view (write s.mem (p.add (2 + got.length)) c) p).take (2 + (got ++ [c]).length) =
      op.type :: op.size :: (got ++ [c]) := by
  have hl : (op.type :: op.size :: got).length = 2 + got.length := by
    simp only [List.length_cons]
    omega
  have hw := view_write_prefix (x := c) (op.type :: op.size :: got) (hl ▸ hroom) (hl ▸ hb.bytes)
  rw [hl] at hw
  rw [List.length_append, List.length_singleton, ← Nat.add_assoc, hw]
  rfl

/-- The only function that may refuse: it asks for the buffer. -/
theorem rxSize_sim {t : UInt8} {op : PacketOperations len} (hr : RxAt operations s (.len t op))
    (he : rxSize s c = some (s', r)) :
    ∃ g, Grants s (.len t op) g ∧
      RxAt operations s' ((rxScheme operations).step g (.len t op) c).1 ∧
      Answers r ((rxScheme operations).step g (.len t op) c).2 := by
  have htab := hr.table
  obtain ⟨hfn, ho⟩ := hr.fields
  rcases rxSize_cases ho he with ⟨hbad, rfl, rfl⟩ | ⟨hok, ⟨hp, rfl, rfl⟩ | ⟨p, -, -, hp, -⟩⟩
  · have ha : (rxScheme operations).accept op c = none := accept_of_bad hbad
    refine ⟨true, Or.inl rfl, ?_⟩
    simp only [Scheme.step, ha]
    exact ⟨⟨htab, trivial, rfl⟩, .of_quiet rfl rfl rfl⟩
  · have ha : (rxScheme operations).accept op c = some (payloadLength c) := accept_of_ok hok
    refine ⟨false, Or.inr ⟨t, op, rfl, hp⟩, ?_⟩
    simp only [Scheme.step, ha, Bool.false_eq_true, if_false]
    exact ⟨⟨htab, trivial, rfl⟩, .of_quiet rfl rfl rfl⟩
  · have ha : (rxScheme operations).accept op c = some (payloadLength c) := accept_of_ok hok
    obtain ⟨hroom, rfl, rfl⟩ := rxSize_started ho hok hp he
    have hw := (rxScheme operations).step_wf (g := true) (c := c) hr.wf
    refine ⟨true, Or.inl rfl, ?_⟩
    simp only [Scheme.step, ha, if_true] at hw ⊢
    refine ⟨⟨htab, hw, rfl, ho, (payloadLength_mod c).symm, p, rfl, rfl, rfl, ?_⟩,
      .of_quiet rfl rfl rfl⟩
    -- both header bytes are read back
    have h0 : (view (op.initializeBuffer s.mem).2 p).take 0 = [] := List.take_zero
    have h1 := view_write_prefix (x := op.type) [] (hroom.mono (by decide)) h0
    exact view_write_prefix (x := op.size) [op.type] hroom h1

theorem rxPayload_sim {t x : UInt8} {op : PacketOperations len} {need : ℕ} {got : List UInt8}
    (hr : RxAt operations s (.body t op x need got)) (he : rxPayload s c = some (s', r)) :
    RxAt operations s' ((rxScheme operations).step true (.body t op x need got) c).1 ∧
      Answers r ((rxScheme operations).step true (.body t op x need got) c).2 := by
  have htab := hr.table
  obtain ⟨hfn, ho, hn, -⟩ := hr.fields
  obtain ⟨p, hb, hroom, rfl, rfl⟩ := rxPayload_stored hr he
  have hw := (rxScheme operations).step_wf (g := true) (c := c) hr.wf
  have hpos : 0 < need := hr.wf.2.2
  have hbytes := hb.stored (c := c) hroom
  have hend : 2 + got.length + 1 = 2 + (got ++ [c]).length := by
    rw [List.length_append, List.length_singleton]
    omega
  by_cases h1 : need = 1
  · simp only [Scheme.step, if_pos h1] at hw ⊢
    exact ⟨⟨htab, hw, rfl, ho, p, hb.packet, hb.buffer, by rw [← hend], hbytes⟩,
      .of_quiet rfl rfl rfl⟩
  · simp only [Scheme.step, if_neg h1] at hw ⊢
    have hcount : (s.h.rxBytesToRead - 1).toNat = (need - 1) % 256 := by
      rw [UInt8.toNat_sub, hn]
      simp only [UInt8.toNat_one]
      omega
    exact ⟨⟨htab, hw, rfl, ho, hcount, p, hb.packet, hb.buffer, by rw [← hend], hbytes⟩,
      .of_quiet rfl rfl rfl⟩

/-- **Simulation**: one received byte is one step of the hunter. -/
theorem rxByte_sim (hr : RxAt operations s ph) (he : rxByte s c = some (s', r)) :
    ∃ g, Grants s ph g ∧ RxAt operations s' ((rxScheme operations).step g ph c).1 ∧
      Answers r ((rxScheme operations).step g ph c).2 := by
  have hf := hr.fields
  cases ph with
  | hunt =>
    simp only [rxByte, show s.h.rxFn = .rxAA from hf] at he
    exact ⟨true, Or.inl rfl, rxAA_sim hr he⟩
  | sync =>
    simp only [rxByte, show s.h.rxFn = .rx55 from hf] at he
    exact ⟨true, Or.inl rfl, rx55_sim hr he⟩
  | tag =>
    simp only [rxByte, show s.h.rxFn = .rxType from hf] at he
    exact ⟨true, Or.inl rfl, rxType_sim hr he⟩
  | len t op =>
    simp only [rxByte, hf.1] at he
    exact rxSize_sim hr he
  | body t op x need got =>
    simp only [rxByte, hf.1] at he
    exact ⟨true, Or.inl rfl, rxPayload_sim hr he⟩
  | stop t op x got =>
    simp only [rxByte, hf.1] at he
    exact ⟨true, Or.inl rfl, rxChecksum_sim hr he⟩

/-- The room for what was announced stays until it has arrived. -/
theorem rxByte_room (hr : RxAt operations s ph) (hroom : RoomAt s ph)
    (hfit : SizesFit operations ph) (he : rxByte s c = some (s', r)) {g : Bool}
    (hs : RxAt operations s' ((rxScheme operations).step g ph c).1) :
    RoomAt s' ((rxScheme operations).step g ph c).1 := by
  have hf := hr.fields
  cases ph with
  | hunt => by_cases hc : c = (rxScheme operations).sync₀ <;> simp [Scheme.step, hc, RoomAt]
  | sync => by_cases hc : c = (rxScheme operations).sync₁ <;> simp [Scheme.step, hc, RoomAt]
  | tag => cases hl : (rxScheme operations).look c <;> simp [Scheme.step, hl, RoomAt]
  | len t op =>
    obtain ⟨hfn, ho⟩ := hf
    simp only [rxByte, hfn] at he
    cases ha : (rxScheme operations).accept op c with
    | none => simp [Scheme.step, ha, RoomAt]
    | some n =>
      cases g with
      | false => simp [Scheme.step, ha, RoomAt]
      | true =>
        simp only [Scheme.step, ha, if_true] at hs ⊢
        rcases rxSize_cases ho he with ⟨hbad, -⟩ | ⟨hok, ⟨-, rfl, -⟩ | ⟨p, -, -, hp, -⟩⟩
        · rw [accept_of_bad hbad] at ha
          cases ha
        · have hfn' : RxFn.rxAA = RxFn.rxPayload := hs.fields.1
          exact absurd hfn' (by decide)
        · obtain ⟨-, rfl, -⟩ := rxSize_started ho hok hp he
          intro p' hp'
          simp only [Option.some.injEq] at hp'
          subst hp'
          have hn := hfit.2 c n ha
          exact (hfit.1 s.mem p hp).mono (by simpa using hn)
  | body t op x need got =>
    obtain ⟨hfn, ho, hn, -⟩ := hf
    simp only [rxByte, hfn] at he
    obtain ⟨p, hb, -, rfl, -⟩ := rxPayload_stored hr he
    by_cases h1 : need = 1
    · simp [Scheme.step, h1, RoomAt]
    · simp only [Scheme.step, if_neg h1]
      intro p' hp'
      have hpos : 0 < need := hr.wf.2.2
      have hlen : 2 + (got ++ [c]).length + (need - 1) ≤ 2 + got.length + need := by
        rw [List.length_append, List.length_singleton]
        omega
      exact (hroom p' hp').mono hlen
  | stop t op x got =>
    by_cases hc : c = (rxScheme operations).stop <;> simp [Scheme.step, hc, RoomAt]

end Step

/-! ## Runs -/

section Runs

variable [DecidableEq β] {operations : Fin packetTypeMax → Option (PacketOperations len)}
  {s s' : RxState len} {ph : Phase UInt8 (PacketOperations len)} {bs : List UInt8}
  {rs : List (RxReturn len)}

/-- **Runs are traces**: whatever bytes arrive, the receiver goes through a trace of the hunter and
answers its events. -/
theorem rxRun_trace (hr : RxAt operations s ph) (he : run rxByte s bs = some (s', rs)) :
    ∃ es ph', Trace (rxScheme operations) ph bs es ph' ∧ RxAt operations s' ph' ∧
      List.Forall₂ Answers rs es := by
  refine run_history (J := fun bs rs s' => ∃ es ph', Trace (rxScheme operations) ph bs es ph' ∧
    RxAt operations s' ph' ∧ List.Forall₂ Answers rs es) ⟨[], ph, .nil, hr, .nil⟩ ?_ he
  rintro bs rs t c u r ⟨es, ph', htr, hrt, hans⟩ hstep
  obtain ⟨g, -, hru, ha⟩ := rxByte_sim hrt hstep
  exact ⟨_, _, htr.snoc g c, hru, List.rel_append hans (.cons ha .nil)⟩

end Runs

end Ulisse
