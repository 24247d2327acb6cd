import Ulisse.Handler.Rx
import Ulisse.Handler.Tx

/-!
# Handler.Halves — the transmit and the receive half of a handler

`PacketHandler` is one record, but no function of `packet_handler.c` looks at both halves of it:
sending and removing bytes depend on the transmit fields alone, and receiving on all the others.
`h.withTx g` is `h` with the transmit half of `g`.
-/

namespace Ulisse

variable {β : Type} {len : β → ℕ}

/-- The handler `h` with the transmit fields of `g`. -/
def PacketHandler.withTx (h g : PacketHandler len) : PacketHandler len :=
  { h with txBuffer := g.txBuffer, txStart := g.txStart, txEnd := g.txEnd, txSize := g.txSize }

section Transmit

variable (h g : PacketHandler len)

theorem txBufSet_withTx (c : UInt8) : (h.withTx g).txBufSet c = (g.txBufSet c).map h.withTx := by
  unfold PacketHandler.txBufSet
  by_cases hfull : g.txSize ≥ packetSizeMax
  · rw [if_pos hfull, if_pos (show (h.withTx g).txSize ≥ packetSizeMax from hfull)]
    rfl
  · rw [if_neg hfull, if_neg (show ¬ (h.withTx g).txSize ≥ packetSizeMax from hfull),
      Option.map_map]
    rfl

theorem txByte_withTx :
    (h.withTx g).txByte = g.txByte.map fun r => (h.withTx r.1, r.2) := by
  unfold PacketHandler.txByte PacketHandler.txBufGet
  by_cases hempty : g.txSize = 0
  · rw [if_pos hempty, if_pos (show (h.withTx g).txSize = 0 from hempty)]
    rfl
  · rw [if_neg hempty, if_neg (show ¬ (h.withTx g).txSize = 0 from hempty), Option.map_map]
    rfl

theorem sendLoop_withTx (n : ℕ) (buf : List UInt8) :
    (h.withTx g).sendLoop n buf = (g.sendLoop n buf).map h.withTx := by
  induction n generalizing g buf with
  | zero => rfl
  | succ n ih =>
    cases buf with
    | nil => rfl
    | cons c buf =>
      rw [PacketHandler.sendLoop, PacketHandler.sendLoop, txBufSet_withTx]
      cases g.txBufSet c with
      | none => rfl
      | some g' => exact ih g' buf

theorem sendPacket_withTx (p : Packet) :
    (h.withTx g).sendPacket p = (g.sendPacket p).map fun r => (r.1, h.withTx r.2) := by
  unfold PacketHandler.sendPacket
  have hsize : (h.withTx g).txSize = g.txSize := rfl
  simp only [hsize]
  split_ifs with hroom
  · rfl
  · rw [txBufSet_withTx]
    cases g.txBufSet 0xAA with
    | none => rfl
    | some g₁ =>
      simp only [Option.map_some, Option.bind_eq_bind, Option.bind_some]
      rw [txBufSet_withTx]
      cases g₁.txBufSet 0x55 with
      | none => rfl
      | some g₂ =>
        simp only [Option.map_some, Option.bind_some]
        rw [sendLoop_withTx]
        cases g₂.sendLoop p.size.toNat p.bytes with
        | none => rfl
        | some g₃ =>
          simp only [Option.map_some, Option.bind_some]
          rw [txBufSet_withTx]
          cases g₃.txBufSet 0xFF <;> rfl

end Transmit

/-! ## Receiving -/

/-- The receiver with the transmit half of `g`. -/
def RxState.withTx (s : RxState len) (g : PacketHandler len) : RxState len := ⟨s.h.withTx g, s.mem⟩

section Receive

open BlockMem

variable [DecidableEq β] (s : RxState len) (g : PacketHandler len) (c : UInt8)

/-- **Receiving** neither reads nor moves the transmit half. -/
theorem rxByte_withTx :
    rxByte (s.withTx g) c = (rxByte s c).map fun r => (r.1.withTx g, r.2) := by
  have hfn : (s.withTx g).h.rxFn = s.h.rxFn := rfl
  unfold rxByte
  rw [hfn]
  cases s.h.rxFn with
  | rxAA =>
    simp only [rxAA]
    split_ifs <;> rfl
  | rx55 =>
    simp only [rx55]
    split_ifs <;> rfl
  | rxType =>
    have hops : (s.withTx g).h.operations = s.h.operations := rfl
    simp only [rxType, hops]
    split_ifs with hc
    · cases s.h.operations ⟨c.toNat, hc⟩ <;> rfl
    · rfl
  | rxSize =>
    have hop : (s.withTx g).h.rxCurrentOp = s.h.rxCurrentOp := rfl
    have hmem : (s.withTx g).mem = s.mem := rfl
    simp only [rxSize, hop, hmem]
    cases s.h.rxCurrentOp with
    | none => rfl
    | some op =>
      simp only
      split_ifs
      · rfl
      · cases (op.initializeBuffer s.mem).1 with
        | none => rfl
        | some p =>
          simp only [Option.bind_eq_bind]
          cases store (op.initializeBuffer s.mem).2 p op.type with
          | none => rfl
          | some m =>
            simp only [Option.bind_some]
            cases store m (p.add 1) op.size <;> rfl
  | rxPayload =>
    have hend : (s.withTx g).h.rxBufferEnd = s.h.rxBufferEnd := rfl
    have hread : (s.withTx g).h.rxBytesToRead = s.h.rxBytesToRead := rfl
    have hmem : (s.withTx g).mem = s.mem := rfl
    simp only [rxPayload, hend, hread, hmem]
    cases s.h.rxBufferEnd with
    | none => rfl
    | some p =>
      simp only [Option.bind_eq_bind]
      cases store s.mem p c with
      | none => rfl
      | some m =>
        simp only [Option.bind_some]
        split_ifs <;> rfl
  | rxChecksum =>
    have hop : (s.withTx g).h.rxCurrentOp = s.h.rxCurrentOp := rfl
    simp only [rxChecksum, hop]
    split_ifs
    · cases s.h.rxCurrentOp with
      | none => rfl
      | some op =>
        simp only
        cases op.onReciveFn <;> rfl
    · rfl
  | wild => rfl

end Receive

end Ulisse
