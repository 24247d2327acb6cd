import Ulisse.Handler.Basic
import Ulisse.Lib.Run

/-!
# Handler.Rx — the receive functions

The receive half of `packet_handler.c`.  A received byte acts on the handler and on the memory that
the operations' buffers live in; the answer is the status and the calls that were made.  `none`
stands for undefined behaviour of the receiver itself: a null or wild pointer followed, or a store
outside the block that a pointer points into.
-/

namespace Ulisse

open BlockMem Run

variable {β : Type} {len : β → ℕ}

/-- The handler and the memory around it. -/
structure RxState {β : Type} (len : β → ℕ) where
  h : PacketHandler len
  mem : Mem UInt8 len

/-- A call of one of an operation's functions: of `on_recive_fn`, with the packet pointer and what
could be read there. -/
inductive Call {β : Type} (len : β → ℕ) where
  | initializeBuffer (op : PacketOperations len)
  | onRecive (op : PacketOperations len) (packet : Option (Ptr β)) (buffer : List UInt8)

/-- The answer to a received byte. -/
structure RxReturn {β : Type} (len : β → ℕ) where
  status : PacketStatus
  calls : List (Call len)

/-- What can be read at a pointer that may be null. -/
def readable (m : Mem UInt8 len) : Option (Ptr β) → List UInt8
  | none => []
  | some p => view m p

/-- `_rxAA` -/
def rxAA (s : RxState len) (c : UInt8) : Option (RxState len × RxReturn len) :=
  if c = 0xAA then some ({ s with h := { s.h with rxFn := .rx55 } }, ⟨.syncAA, []⟩)
  else some (s, ⟨.unsync, []⟩)

/-- `_rx55` -/
def rx55 (s : RxState len) (c : UInt8) : Option (RxState len × RxReturn len) :=
  if c = 0x55 then some ({ s with h := { s.h with rxFn := .rxType } }, ⟨.sync55, []⟩)
  else some ({ s with h := { s.h with rxFn := .rxAA } }, ⟨.unsync, []⟩)

/-- `_rxType` -/
def rxType (s : RxState len) (c : UInt8) : Option (RxState len × RxReturn len) :=
  if hc : c.toNat < packetTypeMax then
    match s.h.operations ⟨c.toNat, hc⟩ with
    | none =>
      some ({ s with h := { s.h with rxCurrentOp := none, rxFn := .rxAA } }, ⟨.unknownType, []⟩)
    | some op =>
      some ({ s with h := { s.h with rxCurrentOp := some op, rxFn := .rxSize } }, ⟨.syncType, []⟩)
  else some ({ s with h := { s.h with rxFn := .rxAA } }, ⟨.unsync, []⟩)

/-- `c-sizeof(PacketHeader)+sizeof(PacketSeq)`, computed in `size_t`, stored in a `PacketSize`. -/
def bytesToRead (c : UInt8) : UInt8 :=
  (c.toUInt64 - UInt64.ofNat sizeofPacketHeader + UInt64.ofNat sizeofPacketSeq).toUInt8

/-- `_rxSize` -/
def rxSize [DecidableEq β] (s : RxState len) (c : UInt8) : Option (RxState len × RxReturn len) :=
  match s.h.rxCurrentOp with
  | none => none
  | some op =>
    if op.size ≠ packetSizeAny ∧ op.size ≠ c then
      some ({ s with h := { s.h with rxFn := .rxAA } }, ⟨.invalidSize, []⟩)
    else
      let (packet, mem) := op.initializeBuffer s.mem
      match packet with
      | none =>
        some (⟨{ s.h with rxCurrentPacket := none, rxFn := .rxAA }, mem⟩,
          ⟨.rxBufferError, [.initializeBuffer op]⟩)
      | some p => do
        let mem ← store mem p op.type
        let mem ← store mem (p.add 1) op.size
        return (⟨{ s.h with
            rxCurrentPacket := some p
            rxBytesToRead := bytesToRead c
            rxBuffer := some p
            rxBufferEnd := some (p.add 2)
            rxFn := .rxPayload }, mem⟩,
          ⟨.syncSize, [.initializeBuffer op]⟩)

/-- `_rxPayload` -/
def rxPayload [DecidableEq β] (s : RxState len) (c : UInt8) : Option (RxState len × RxReturn len) :=
  match s.h.rxBufferEnd with
  | none => none
  | some p => do
    let mem ← store s.mem p c
    let n := s.h.rxBytesToRead - 1
    if n = 0 then
      return (⟨{ s.h with rxBufferEnd := some (p.add 1), rxBytesToRead := n, rxFn := .rxChecksum },
        mem⟩, ⟨.syncPayloadComplete, []⟩)
    else
      return (⟨{ s.h with rxBufferEnd := some (p.add 1), rxBytesToRead := n }, mem⟩,
        ⟨.syncPayload, []⟩)

/-- `_rxChecksum` -/
def rxChecksum (s : RxState len) (c : UInt8) : Option (RxState len × RxReturn len) :=
  let h := { s.h with rxFn := .rxAA, rxBuffer := none, rxBufferEnd := none }
  if c = 0xFF then
    match s.h.rxCurrentOp with
    | none => none
    | some op =>
      match op.onReciveFn with
      | none => some (⟨h, s.mem⟩, ⟨.syncChecksum, []⟩)
      | some f =>
        some (⟨h, (f s.h.rxCurrentPacket op.onReciveArgs s.mem).2⟩,
          ⟨.syncChecksum, [.onRecive op s.h.rxCurrentPacket (readable s.mem s.h.rxCurrentPacket)]⟩)
  else some (⟨h, s.mem⟩, ⟨.checksumError, []⟩)

/-- `PacketHandler_rxByte` -/
def rxByte [DecidableEq β] (s : RxState len) (c : UInt8) : Option (RxState len × RxReturn len) :=
  match s.h.rxFn with
  | .rxAA => rxAA s c
  | .rx55 => rx55 s c
  | .rxType => rxType s c
  | .rxSize => rxSize s c
  | .rxPayload => rxPayload s c
  | .rxChecksum => rxChecksum s c
  | .wild => none

/-! ## What a byte can do -/

/-- The effects of `rxByte s c`, one for each way through the receive functions: `s'` is the state
behind it and `r` the answer. -/
inductive RxStep {β : Type} [DecidableEq β] {len : β → ℕ} (s : RxState len) (c : UInt8) :
    RxState len → RxReturn len → Prop where
  | syncAA (hfn : s.h.rxFn = .rxAA) (hc : c = 0xAA) :
    RxStep s c { s with h := { s.h with rxFn := .rx55 } } ⟨.syncAA, []⟩
  | lostAA (hfn : s.h.rxFn = .rxAA) (hc : c ≠ 0xAA) : RxStep s c s ⟨.unsync, []⟩
  | sync55 (hfn : s.h.rxFn = .rx55) (hc : c = 0x55) :
    RxStep s c { s with h := { s.h with rxFn := .rxType } } ⟨.sync55, []⟩
  | lost55 (hfn : s.h.rxFn = .rx55) (hc : c ≠ 0x55) :
    RxStep s c { s with h := { s.h with rxFn := .rxAA } } ⟨.unsync, []⟩
  | noType (hfn : s.h.rxFn = .rxType) (hc : ¬ c.toNat < packetTypeMax) :
    RxStep s c { s with h := { s.h with rxFn := .rxAA } } ⟨.unsync, []⟩
  | unknownType (hfn : s.h.rxFn = .rxType) (hc : c.toNat < packetTypeMax)
      (hl : lookup s.h.operations c = none) :
    RxStep s c { s with h := { s.h with rxCurrentOp := none, rxFn := .rxAA } } ⟨.unknownType, []⟩
  | syncType (op : PacketOperations len) (hfn : s.h.rxFn = .rxType)
      (hl : lookup s.h.operations c = some op) :
    RxStep s c { s with h := { s.h with rxCurrentOp := some op, rxFn := .rxSize } } ⟨.syncType, []⟩
  | invalidSize (op : PacketOperations len) (hfn : s.h.rxFn = .rxSize)
      (ho : s.h.rxCurrentOp = some op) (hbad : op.size ≠ packetSizeAny ∧ op.size ≠ c) :
    RxStep s c { s with h := { s.h with rxFn := .rxAA } } ⟨.invalidSize, []⟩
  | rxBufferError (op : PacketOperations len) (hfn : s.h.rxFn = .rxSize)
      (ho : s.h.rxCurrentOp = some op) (hok : ¬ (op.size ≠ packetSizeAny ∧ op.size ≠ c))
      (hp : (op.initializeBuffer s.mem).1 = none) :
    RxStep s c ⟨{ s.h with rxCurrentPacket := none, rxFn := .rxAA }, (op.initializeBuffer s.mem).2⟩
      ⟨.rxBufferError, [.initializeBuffer op]⟩
  | syncSize (op : PacketOperations len) (p : Ptr β) (m m' : Mem UInt8 len)
      (hfn : s.h.rxFn = .rxSize) (ho : s.h.rxCurrentOp = some op)
      (hok : ¬ (op.size ≠ packetSizeAny ∧ op.size ≠ c))
      (hp : (op.initializeBuffer s.mem).1 = some p)
      (h1 : store (op.initializeBuffer s.mem).2 p op.type = some m)
      (h2 : store m (p.add 1) op.size = some m') :
    RxStep s c ⟨{ s.h with
        rxCurrentPacket := some p
        rxBytesToRead := bytesToRead c
        rxBuffer := some p
        rxBufferEnd := some (p.add 2)
        rxFn := .rxPayload }, m'⟩ ⟨.syncSize, [.initializeBuffer op]⟩
  | syncPayload (p : Ptr β) (m : Mem UInt8 len) (hfn : s.h.rxFn = .rxPayload)
      (hp : s.h.rxBufferEnd = some p) (h1 : store s.mem p c = some m)
      (hn : s.h.rxBytesToRead - 1 ≠ 0) :
    RxStep s c ⟨{ s.h with
        rxBufferEnd := some (p.add 1)
        rxBytesToRead := s.h.rxBytesToRead - 1 }, m⟩ ⟨.syncPayload, []⟩
  | syncPayloadComplete (p : Ptr β) (m : Mem UInt8 len) (hfn : s.h.rxFn = .rxPayload)
      (hp : s.h.rxBufferEnd = some p) (h1 : store s.mem p c = some m)
      (hn : s.h.rxBytesToRead - 1 = 0) :
    RxStep s c ⟨{ s.h with
        rxBufferEnd := some (p.add 1)
        rxBytesToRead := s.h.rxBytesToRead - 1
        rxFn := .rxChecksum }, m⟩ ⟨.syncPayloadComplete, []⟩
  | checksumError (hfn : s.h.rxFn = .rxChecksum) (hc : c ≠ 0xFF) :
    RxStep s c ⟨{ s.h with rxFn := .rxAA, rxBuffer := none, rxBufferEnd := none }, s.mem⟩
      ⟨.checksumError, []⟩
  | silent (op : PacketOperations len) (hfn : s.h.rxFn = .rxChecksum) (hc : c = 0xFF)
      (ho : s.h.rxCurrentOp = some op) (hon : op.onReciveFn = none) :
    RxStep s c ⟨{ s.h with rxFn := .rxAA, rxBuffer := none, rxBufferEnd := none }, s.mem⟩
      ⟨.syncChecksum, []⟩
  | recive (op : PacketOperations len)
      (f : Option (Ptr β) → Option (Ptr β) → Mem UInt8 len → PacketStatus × Mem UInt8 len)
      (hfn : s.h.rxFn = .rxChecksum) (hc : c = 0xFF) (ho : s.h.rxCurrentOp = some op)
      (hon : op.onReciveFn = some f) :
    RxStep s c ⟨{ s.h with rxFn := .rxAA, rxBuffer := none, rxBufferEnd := none },
        (f s.h.rxCurrentPacket op.onReciveArgs s.mem).2⟩
      ⟨.syncChecksum, [.onRecive op s.h.rxCurrentPacket (readable s.mem s.h.rxCurrentPacket)]⟩

section Step

variable [DecidableEq β] {s s' : RxState len} {c : UInt8} {r : RxReturn len}

/-- The three ways of the size byte: it is not the operation's, or there is no buffer, or the header
is rebuilt in the buffer. -/
theorem rxSize_cases {op : PacketOperations len} (ho : s.h.rxCurrentOp = some op)
    (he : rxSize s c = some (s', r)) :
    ((op.size ≠ packetSizeAny ∧ op.size ≠ c) ∧ s' = { s with h := { s.h with rxFn := .rxAA } } ∧
      r = ⟨.invalidSize, []⟩) ∨
    (¬ (op.size ≠ packetSizeAny ∧ op.size ≠ c) ∧
      (((op.initializeBuffer s.mem).1 = none ∧
        s' = ⟨{ s.h with rxCurrentPacket := none, rxFn := .rxAA },
          (op.initializeBuffer s.mem).2⟩ ∧
        r = ⟨.rxBufferError, [.initializeBuffer op]⟩) ∨
      ∃ p m m', (op.initializeBuffer s.mem).1 = some p ∧
        store (op.initializeBuffer s.mem).2 p op.type = some m ∧
        store m (p.add 1) op.size = some m' ∧
        s' = ⟨{ s.h with
          rxCurrentPacket := some p
          rxBytesToRead := bytesToRead c
          rxBuffer := some p
          rxBufferEnd := some (p.add 2)
          rxFn := .rxPayload }, m'⟩ ∧
        r = ⟨.syncSize, [.initializeBuffer op]⟩)) := by
  simp only [rxSize, ho] at he
  split_ifs at he with hok
  · obtain ⟨rfl, rfl⟩ := result_unique rfl he
    exact Or.inl ⟨hok, by rw [← ho], rfl⟩
  · refine Or.inr ⟨hok, ?_⟩
    cases hp : (op.initializeBuffer s.mem).1 with
    | none =>
      simp only [hp] at he
      obtain ⟨rfl, rfl⟩ := result_unique rfl he
      exact Or.inl ⟨rfl, by rw [← ho], rfl⟩
    | some p =>
      simp only [hp, Option.bind_eq_bind, Option.bind_eq_some_iff] at he
      obtain ⟨m, h1, m', h2, he⟩ := he
      obtain ⟨rfl, rfl⟩ := result_unique rfl he
      exact Or.inr ⟨p, m, m', rfl, h1, h2, by rw [← ho], rfl⟩

/-- **Inversion**: a defined answer came one of these ways. -/
theorem rxByte_step (he : rxByte s c = some (s', r)) : RxStep s c s' r := by
  cases hfn : s.h.rxFn with
  | rxAA =>
    simp only [rxByte, hfn, rxAA] at he
    split_ifs at he with hc
    · obtain ⟨rfl, rfl⟩ := result_unique rfl he
      exact .syncAA hfn hc
    · obtain ⟨rfl, rfl⟩ := result_unique rfl he
      exact .lostAA hfn hc
  | rx55 =>
    simp only [rxByte, hfn, rx55] at he
    split_ifs at he with hc
    · obtain ⟨rfl, rfl⟩ := result_unique rfl he
      exact .sync55 hfn hc
    · obtain ⟨rfl, rfl⟩ := result_unique rfl he
      exact .lost55 hfn hc
  | rxType =>
    simp only [rxByte, hfn, rxType] at he
    split_ifs at he with hc
    · have hl := lookup_of_lt s.h.operations hc
      cases ho : s.h.operations ⟨c.toNat, hc⟩ with
      | none =>
        rw [ho] at he hl
        obtain ⟨rfl, rfl⟩ := result_unique rfl he
        exact .unknownType hfn hc hl
      | some op =>
        rw [ho] at he hl
        obtain ⟨rfl, rfl⟩ := result_unique rfl he
        exact .syncType op hfn hl
    · obtain ⟨rfl, rfl⟩ := result_unique rfl he
      exact .noType hfn hc
  | rxSize =>
    simp only [rxByte, hfn] at he
    cases ho : s.h.rxCurrentOp with
    | none =>
      rw [rxSize, ho] at he
      cases he
    | some op =>
      rcases rxSize_cases ho he with ⟨hbad, rfl, rfl⟩ | ⟨hok, ⟨hp, rfl, rfl⟩ | hstart⟩
      · exact .invalidSize op hfn ho hbad
      · exact .rxBufferError op hfn ho hok hp
      · obtain ⟨p, m, m', hp, h1, h2, rfl, rfl⟩ := hstart
        exact .syncSize op p m m' hfn ho hok hp h1 h2
  | rxPayload =>
    simp only [rxByte, hfn, rxPayload] at he
    cases hp : s.h.rxBufferEnd with
    | none =>
      rw [hp] at he
      cases he
    | some p =>
      simp only [hp, Option.bind_eq_bind, Option.bind_eq_some_iff] at he
      obtain ⟨m, h1, he⟩ := he
      split_ifs at he with hn
      · obtain ⟨rfl, rfl⟩ := result_unique rfl he
        exact .syncPayloadComplete p m hfn hp h1 hn
      · obtain ⟨rfl, rfl⟩ := result_unique rfl he
        rw [← hfn]
        exact .syncPayload p m hfn hp h1 hn
  | rxChecksum =>
    simp only [rxByte, hfn, rxChecksum] at he
    split_ifs at he with hc
    · cases ho : s.h.rxCurrentOp with
      | none =>
        rw [ho] at he
        cases he
      | some op =>
        simp only [ho] at he
        cases hon : op.onReciveFn with
        | none =>
          simp only [hon] at he
          obtain ⟨rfl, rfl⟩ := result_unique rfl he
          rw [← ho]
          exact .silent op hfn hc ho hon
        | some f =>
          simp only [hon] at he
          obtain ⟨rfl, rfl⟩ := result_unique rfl he
          rw [← ho]
          exact .recive op f hfn hc ho hon
    · obtain ⟨rfl, rfl⟩ := result_unique rfl he
      exact .checksumError hfn hc
  | wild =>
    simp only [rxByte, hfn] at he
    cases he

/-- `h'` is `h` with other receive fields. -/
def RxChange (h h' : PacketHandler len) : Prop :=
  ∃ rxBuffer rxBufferEnd rxCurrentOp rxCurrentPacket rxBytesToRead rxFn,
    h' = { h with rxBuffer, rxBufferEnd, rxCurrentOp, rxCurrentPacket, rxBytesToRead, rxFn }

/-- **Frame**: a byte moves the receive fields only. -/
theorem rxByte_change (he : rxByte s c = some (s', r)) : RxChange s.h s'.h := by
  cases rxByte_step he <;> exact ⟨_, _, _, _, _, _, rfl⟩

end Step

/-! ## What a run delivers -/

/-- A packet handed to an operation: the operation and the first `op.size` bytes of the buffer. -/
structure Delivery {β : Type} (len : β → ℕ) where
  op : PacketOperations len
  packet : List UInt8

/-- The delivery that a call makes, if it is one of `on_recive_fn`. -/
def Call.delivery? : Call len → Option (Delivery len)
  | .initializeBuffer _ => none
  | .onRecive op _ buffer => some ⟨op, buffer.take op.size.toNat⟩

/-- The packets delivered by a run of answers, in order. -/
def deliveries (rs : List (RxReturn len)) : List (Delivery len) :=
  rs.flatMap fun r => r.calls.filterMap Call.delivery?

@[simp] theorem deliveries_nil : deliveries ([] : List (RxReturn len)) = [] := rfl

@[simp] theorem deliveries_cons (r : RxReturn len) (rs : List (RxReturn len)) :
    deliveries (r :: rs) = r.calls.filterMap Call.delivery? ++ deliveries rs := rfl

@[simp] theorem deliveries_append (rs rs' : List (RxReturn len)) :
    deliveries (rs ++ rs') = deliveries rs ++ deliveries rs' :=
  List.flatMap_append

/-- What the receiver makes of a completed packet of `op`: one call, if `on_recive_fn` is set. -/
def PacketOperations.deliver (op : PacketOperations len) (packet : List UInt8) :
    List (Delivery len) :=
  if op.onReciveFn.isSome then [⟨op, packet⟩] else []

/-! ## The countdown -/

theorem bytesToRead_toNat (c : UInt8) : (bytesToRead c).toNat = (c.toNat + 254) % 256 := by
  have hc := c.toNat_lt
  simp only [bytesToRead, sizeofPacketHeader, sizeofPacketSeq, UInt64.toNat_toUInt8,
    UInt64.toNat_add, UInt64.toNat_sub, UInt8.toNat_toUInt64, UInt64.toNat_ofNat']
  omega

/-- How often `_rxPayload` runs after the size byte `c`: a countdown that starts at `0` goes all the
way round. -/
def payloadLength (c : UInt8) : ℕ := if bytesToRead c = 0 then 256 else (bytesToRead c).toNat

theorem payloadLength_pos (c : UInt8) : 0 < payloadLength c := by
  unfold payloadLength
  split_ifs with h
  · decide
  · have hne : (bytesToRead c).toNat ≠ 0 := fun h0 => h (UInt8.toNat_inj.mp h0)
    omega

theorem payloadLength_le (c : UInt8) : payloadLength c ≤ 256 := by
  unfold payloadLength
  have hlt := (bytesToRead c).toNat_lt
  split_ifs <;> omega

/-- From a size byte that leaves a payload on, the countdown is the declared one. -/
theorem payloadLength_of_le {c : UInt8} (hc : 3 ≤ c.toNat) : payloadLength c = c.toNat - 2 := by
  have hlt := c.toNat_lt
  have hn : (bytesToRead c).toNat = c.toNat - 2 := by
    rw [bytesToRead_toNat]
    omega
  have hne : bytesToRead c ≠ 0 := by
    intro h0
    rw [h0] at hn
    simp only [UInt8.toNat_zero] at hn
    omega
  rw [payloadLength, if_neg hne, hn]

/-- Below that the countdown wraps around. -/
theorem payloadLength_of_lt {c : UInt8} (hc : c.toNat < 3) : 254 ≤ payloadLength c := by
  have hn := bytesToRead_toNat c
  unfold payloadLength
  split_ifs with h
  · omega
  · have hne : (bytesToRead c).toNat ≠ 0 := fun h0 => h (UInt8.toNat_inj.mp h0)
    omega

/-- The payload fills the rest of the declared size. -/
theorem size_le_payloadLength (c : UInt8) : c.toNat ≤ 2 + payloadLength c := by
  by_cases hc : 3 ≤ c.toNat
  · rw [payloadLength_of_le hc]
    omega
  · have hpos := payloadLength_pos c
    omega

theorem payloadLength_mod (c : UInt8) : payloadLength c % 256 = (bytesToRead c).toNat := by
  have hlt := (bytesToRead c).toNat_lt
  unfold payloadLength
  split_ifs with h
  · rw [h]; rfl
  · omega

end Ulisse
