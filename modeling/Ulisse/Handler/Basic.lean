import Mathlib.Data.Int.Notation
import Mathlib.Logic.Function.Basic
import Ulisse.Lib.BlockMem
import Ulisse.Packet

/-!
# Handler.Basic — the packet handler's data and its registry

From `packet_operations.h`, `packet_handler.h` and the head of `packet_handler.c`.  Memory outside
the handler is a `Mem UInt8 len` over blocks that the caller chooses; `void*` arguments and packet
pointers point into it, with `none` for null.  The operations' functions are arbitrary: what
a caller promises about them is stated where a result needs it.
-/

namespace Ulisse

open BlockMem

/-- `PacketStatus`, errors first. -/
inductive PacketStatus where
  | unknownType
  | rxBufferError
  | invalidSize
  | checksumError
  | unsync
  | packetTypeOutOfBounds
  | packetInstallError
  | packetUninstallError
  | txBufferFull
  | noHandler
  | timeout
  | genericError
  | success
  | syncAA
  | sync55
  | syncType
  | syncSize
  | syncPayload
  | syncPayloadComplete
  | syncChecksum
  deriving DecidableEq, Repr

/-- The number behind a status: negative for error conditions. -/
def PacketStatus.code : PacketStatus → ℤ
  | unknownType => -1
  | rxBufferError => -2
  | invalidSize => -3
  | checksumError => -4
  | unsync => -5
  | packetTypeOutOfBounds => -6
  | packetInstallError => -7
  | packetUninstallError => -8
  | txBufferFull => -9
  | noHandler => -10
  | timeout => -11
  | genericError => -127
  | success => 0
  | syncAA => 1
  | sync55 => 2
  | syncType => 3
  | syncSize => 4
  | syncPayload => 5
  | syncPayloadComplete => 6
  | syncChecksum => 7

/-- `PacketOperations`.  `addr` is where the block lives: operations are handled by address, so two
of them with equal fields are still two. -/
structure PacketOperations {β : Type} (len : β → ℕ) where
  addr : ℕ
  type : UInt8
  size : UInt8
  initializeBufferFn : UInt8 → UInt8 → Option (Ptr β) → Mem UInt8 len →
    Option (Ptr β) × Mem UInt8 len
  initializeBufferArgs : Option (Ptr β)
  onReciveFn : Option (Option (Ptr β) → Option (Ptr β) → Mem UInt8 len →
    PacketStatus × Mem UInt8 len)
  onReciveArgs : Option (Ptr β)

/-- The call of `initialize_buffer_fn` that the receiver makes. -/
def PacketOperations.initializeBuffer {β : Type} {len : β → ℕ} (op : PacketOperations len)
    (m : Mem UInt8 len) : Option (Ptr β) × Mem UInt8 len :=
  op.initializeBufferFn op.type op.size op.initializeBufferArgs m

/-- The functions that `rxFn` can point to; `wild` is any other word. -/
inductive RxFn where
  | rxAA
  | rx55
  | rxType
  | rxSize
  | rxPayload
  | rxChecksum
  | wild
  deriving DecidableEq, Repr

/-- `PacketHandler` -/
structure PacketHandler {β : Type} (len : β → ℕ) where
  operations : Fin packetTypeMax → Option (PacketOperations len)
  rxBuffer : Option (Ptr β)
  rxBufferEnd : Option (Ptr β)
  rxCurrentOp : Option (PacketOperations len)
  rxCurrentPacket : Option (Ptr β)
  rxBytesToRead : UInt8
  rxFn : RxFn
  txBuffer : Fin packetSizeMax → UInt8
  txStart : ℤ
  txEnd : ℤ
  txSize : ℤ

variable {β : Type} {len : β → ℕ}

/-- `h->operations[t]`, and `none` also for a type that the array has no slot for. -/
def lookup (operations : Fin packetTypeMax → Option (PacketOperations len)) (t : UInt8) :
    Option (PacketOperations len) :=
  if ht : t.toNat < packetTypeMax then operations ⟨t.toNat, ht⟩ else none

namespace PacketHandler

/-- `PacketHandler_initialize`: the operations and the transmit bytes stay as they were. -/
def initialized (h : PacketHandler len) : PacketHandler len :=
  { h with
    rxBuffer := none
    rxBufferEnd := none
    rxCurrentOp := none
    rxCurrentPacket := none
    rxBytesToRead := 0
    rxFn := .rxAA
    txStart := 0
    txEnd := 0
    txSize := 0 }

/-- `PacketHandler_installPacket` -/
def installPacket (h : PacketHandler len) (ops : PacketOperations len) :
    PacketStatus × PacketHandler len :=
  if ht : ops.type.toNat < packetTypeMax then
    match h.operations ⟨ops.type.toNat, ht⟩ with
    | some _ => (.packetInstallError, h)
    | none =>
      (.success, { h with
        operations := Function.update h.operations ⟨ops.type.toNat, ht⟩ (some ops) })
  else (.packetTypeOutOfBounds, h)

/-- `PacketHandler_uninstallPacket` -/
def uninstallPacket (h : PacketHandler len) (type : UInt8) : PacketStatus × PacketHandler len :=
  if ht : type.toNat < packetTypeMax then
    match h.operations ⟨type.toNat, ht⟩ with
    | none => (.packetUninstallError, h)
    | some _ =>
      (.success, { h with operations := Function.update h.operations ⟨type.toNat, ht⟩ none })
  else (.packetTypeOutOfBounds, h)

end PacketHandler

/-- A handler whose memory is all zero. -/
def zeroHandler : PacketHandler len where
  operations _ := none
  rxBuffer := none
  rxBufferEnd := none
  rxCurrentOp := none
  rxCurrentPacket := none
  rxBytesToRead := 0
  rxFn := .wild
  txBuffer _ := 0
  txStart := 0
  txEnd := 0
  txSize := 0

/-! ### Looking up what was installed -/

theorem lookup_of_lt (operations : Fin packetTypeMax → Option (PacketOperations len)) {t : UInt8}
    (ht : t.toNat < packetTypeMax) : lookup operations t = operations ⟨t.toNat, ht⟩ := by
  rw [lookup, dif_pos ht]

theorem lookup_some_lt {operations : Fin packetTypeMax → Option (PacketOperations len)} {t : UInt8}
    {op : PacketOperations len} (h : lookup operations t = some op) : t.toNat < packetTypeMax := by
  unfold lookup at h
  split_ifs at h with ht
  exact ht

/-- **Install**: the operation's own slot is filled if it was empty, and nothing else moves. -/
theorem PacketHandler.installPacket_success {h h' : PacketHandler len} {ops : PacketOperations len}
    (hi : h.installPacket ops = (.success, h')) :
    ops.type.toNat < packetTypeMax ∧ lookup h.operations ops.type = none ∧
      (∀ t, lookup h'.operations t = if t = ops.type then some ops else lookup h.operations t) ∧
      h' = { h with operations := h'.operations } := by
  unfold PacketHandler.installPacket at hi
  split_ifs at hi with ht
  · cases ho : h.operations ⟨ops.type.toNat, ht⟩ with
    | some op => rw [ho] at hi; cases hi
    | none =>
      rw [ho] at hi
      simp only [Prod.mk.injEq, true_and] at hi
      subst hi
      refine ⟨ht, by rw [lookup_of_lt _ ht, ho], fun t => ?_, rfl⟩
      by_cases hlt : t.toNat < packetTypeMax
      · rw [lookup_of_lt _ hlt, lookup_of_lt _ hlt]
        by_cases he : t = ops.type
        · subst he; simp
        · have hne : (⟨t.toNat, hlt⟩ : Fin packetTypeMax) ≠ ⟨ops.type.toNat, ht⟩ := fun hc =>
            he (UInt8.toNat_inj.mp (Fin.mk.inj hc))
          simp only [if_neg he, Function.update_of_ne hne]
      · rw [lookup, dif_neg hlt, lookup, dif_neg hlt, if_neg]
        rintro rfl
        exact hlt ht
  · cases hi

/-- The tables that calls of `installPacket` fill, starting from the empty one. -/
inductive Filled : (Fin packetTypeMax → Option (PacketOperations len)) → Prop where
  | empty : Filled fun _ => none
  | install {h h' : PacketHandler len} {ops : PacketOperations len} (hf : Filled h.operations)
    (hi : h.installPacket ops = (.success, h')) : Filled h'.operations

/-- In a filled table every operation stands in the slot of its own type. -/
theorem Filled.type_eq {operations : Fin packetTypeMax → Option (PacketOperations len)}
    (hf : Filled operations) {t : UInt8} {op : PacketOperations len}
    (h : lookup operations t = some op) : op.type = t := by
  induction hf generalizing t op with
  | empty => unfold lookup at h; split_ifs at h
  | install _ hi ih =>
    obtain ⟨-, -, hl, -⟩ := PacketHandler.installPacket_success hi
    rw [hl t] at h
    split_ifs at h with he
    · rw [he, ← Option.some_inj.mp h]
    · exact ih h

end Ulisse
