import Mathlib.Data.List.Infix
import Ulisse.Handler.Basic
import Ulisse.Lib.RingQueue
import Ulisse.Lib.Run

/-!
# Handler.Tx — the transmit ring

The transmit half of `packet_handler.c` and `buffer_utils.h`.  `none` stands for an access outside
`tx_buffer` or past the object that a packet pointer points to.  `RingAt h q` says that the three
counters of `h` describe the ring queue `q`; from an initialized handler on every state has such a
`q` (`txRun_ring`), puts and gets are the queue's `put` and `pop`, and a sent packet is its whole
frame behind what was queued (`sendPacket_ring`).
-/

namespace Ulisse

open Run

variable {β : Type} {len : β → ℕ}

/-! ## The code -/

/-- `BUFFER_PUT`: the new end and size. -/
def bufferPut (bEnd bSize : ℤ) (bSizeMax : ℕ) : ℤ × ℤ :=
  (if bEnd + 1 ≥ bSizeMax then 0 else bEnd + 1, bSize + 1)

/-- `BUFFER_GET`: the new start and size. -/
def bufferGet (bStart bSize : ℤ) (bSizeMax : ℕ) : ℤ × ℤ :=
  (if bStart + 1 ≥ bSizeMax then 0 else bStart + 1, bSize - 1)

/-- The cell of `tx_buffer` with index `i`, if there is one. -/
def txCell (i : ℤ) : Option (Fin packetSizeMax) :=
  if hi : 0 ≤ i ∧ i < packetSizeMax then some ⟨i.toNat, by omega⟩ else none

namespace PacketHandler

/-- `_txBuf_set` -/
def txBufSet (h : PacketHandler len) (c : UInt8) : Option (PacketHandler len) :=
  if h.txSize ≥ packetSizeMax then some h
  else (txCell h.txEnd).map fun i =>
    let put := bufferPut h.txEnd h.txSize packetSizeMax
    { h with txBuffer := Function.update h.txBuffer i c, txEnd := put.1, txSize := put.2 }

/-- `_txBuf_get`.  The byte is read into a local and the function ends without returning it: the
value that the caller gets, `none` here, is not determined. -/
def txBufGet (h : PacketHandler len) : Option (PacketHandler len × Option UInt8) :=
  if h.txSize = 0 then some (h, some 0)
  else (txCell h.txStart).map fun _ =>
    let get := bufferGet h.txStart h.txSize packetSizeMax
    ({ h with txStart := get.1, txSize := get.2 }, none)

/-- `PacketHandler_txByte` -/
def txByte (h : PacketHandler len) : Option (PacketHandler len × Option UInt8) := h.txBufGet

/-- The loop of `PacketHandler_sendPacket`: `size` bytes from `buf`. -/
def sendLoop (h : PacketHandler len) : ℕ → List UInt8 → Option (PacketHandler len)
  | 0, _ => some h
  | _ + 1, [] => none
  | size + 1, c :: buf => (h.txBufSet c).bind fun h => sendLoop h size buf

/-- `PacketHandler_sendPacket` -/
def sendPacket (h : PacketHandler len) (header : Packet) :
    Option (PacketStatus × PacketHandler len) :=
  let txFree := (packetSizeMax : ℤ) - h.txSize
  let realSize : ℤ := header.size.toNat + 3
  if txFree < realSize then some (.txBufferFull, h)
  else do
    let h ← h.txBufSet 0xAA
    let h ← h.txBufSet 0x55
    let h ← h.sendLoop header.size.toNat header.bytes
    let h ← h.txBufSet 0xFF
    return (.success, h)

/-- The `tx_size` bytes from `tx_start` in ring order. -/
def txQueue (h : PacketHandler len) : List UInt8 :=
  (List.range h.txSize.toNat).filterMap fun (i : ℕ) =>
    (txCell ((h.txStart + i) % packetSizeMax)).map h.txBuffer

/-- The ring byte at `tx_start`, if the ring holds one. -/
def txHead (h : PacketHandler len) : Option UInt8 :=
  if h.txSize = 0 then none else (txCell h.txStart).map h.txBuffer

end PacketHandler

/-- The frame of a packet: sync pair, the `size` bytes, trailer. -/
def Packet.frame (p : Packet) : List UInt8 := 0xAA :: 0x55 :: (p.content ++ [0xFF])

/-- A call at the transmit end. -/
inductive TxCall where
  | sendPacket (p : Packet)
  | txByte

/-- What a call at the transmit end returns; of `txByte`, also the ring byte that was at
`tx_start`. -/
inductive TxReturn where
  | sent (p : Packet) (status : PacketStatus)
  | byte (value ring : Option UInt8)

/-- One call at the transmit end. -/
def txStep (h : PacketHandler len) : TxCall → Option (PacketHandler len × TxReturn)
  | .sendPacket p => (h.sendPacket p).map fun r => (r.2, .sent p r.1)
  | .txByte => h.txByte.map fun r => (r.1, .byte r.2 h.txHead)

/-- The packet, if it was accepted. -/
def TxReturn.accepted? : TxReturn → Option Packet
  | .sent p .success => some p
  | _ => none

/-- The byte removed from the ring, if there was one. -/
def TxReturn.removed? : TxReturn → Option UInt8
  | .sent _ _ => none
  | .byte _ ring => ring

/-- The value that `txByte` returned on a ring that held a byte; `some none` if that value is not
determined. -/
def TxReturn.returned? : TxReturn → Option (Option UInt8)
  | .byte value (some _) => some value
  | _ => none

/-- The packets accepted in a run. -/
def accepted (rs : List TxReturn) : List Packet := rs.filterMap TxReturn.accepted?

/-- The bytes removed in a run. -/
def removed (rs : List TxReturn) : List UInt8 := rs.filterMap TxReturn.removed?

/-- The values returned in a run by the calls of `txByte` on a ring that held a byte. -/
def returned (rs : List TxReturn) : List (Option UInt8) := rs.filterMap TxReturn.returned?

/-! ## What the transmit end leaves alone -/

/-- `h'` is `h` with other transmit fields. -/
def TxChange (h h' : PacketHandler len) : Prop :=
  ∃ txBuffer txStart txEnd txSize, h' = { h with txBuffer, txStart, txEnd, txSize }

section TxChange

variable {h h₁ h₂ : PacketHandler len}

theorem TxChange.refl (h : PacketHandler len) : TxChange h h := ⟨_, _, _, _, rfl⟩

theorem TxChange.trans (a : TxChange h h₁) (b : TxChange h₁ h₂) : TxChange h h₂ := by
  obtain ⟨_, _, _, _, rfl⟩ := a
  obtain ⟨_, _, _, _, rfl⟩ := b
  exact ⟨_, _, _, _, rfl⟩

theorem txBufSet_change {c : UInt8} (hs : h.txBufSet c = some h₁) : TxChange h h₁ := by
  unfold PacketHandler.txBufSet at hs
  split_ifs at hs
  · exact Option.some_inj.mp hs ▸ TxChange.refl h
  · obtain ⟨i, -, rfl⟩ := Option.map_eq_some_iff.mp hs
    exact ⟨_, _, _, _, rfl⟩

theorem txByte_change {v : Option UInt8} (hs : h.txByte = some (h₁, v)) : TxChange h h₁ := by
  unfold PacketHandler.txByte PacketHandler.txBufGet at hs
  split_ifs at hs
  · simp only [Option.some.injEq, Prod.mk.injEq] at hs
    exact hs.1 ▸ TxChange.refl h
  · obtain ⟨i, -, he⟩ := Option.map_eq_some_iff.mp hs
    simp only [Prod.mk.injEq] at he
    obtain ⟨rfl, -⟩ := he
    exact ⟨_, _, _, _, rfl⟩

theorem sendLoop_change {n : ℕ} {buf : List UInt8} (hs : h.sendLoop n buf = some h₁) :
    TxChange h h₁ := by
  induction n generalizing h buf with
  | zero =>
    rw [PacketHandler.sendLoop] at hs
    exact Option.some_inj.mp hs ▸ TxChange.refl h
  | succ n ih =>
    cases buf with
    | nil => cases hs
    | cons c buf =>
      obtain ⟨h₂, h1, h2⟩ := Option.bind_eq_some_iff.mp hs
      exact (txBufSet_change h1).trans (ih h2)

theorem sendPacket_change {p : Packet} {status : PacketStatus}
    (hs : h.sendPacket p = some (status, h₁)) : TxChange h h₁ := by
  unfold PacketHandler.sendPacket at hs
  simp only at hs
  split_ifs at hs
  · simp only [Option.some.injEq, Prod.mk.injEq] at hs
    exact hs.2 ▸ TxChange.refl h
  · simp only [Option.bind_eq_bind, Option.bind_eq_some_iff, Option.pure_def, Option.some.injEq,
      Prod.mk.injEq] at hs
    obtain ⟨a, ha, b, hb, c, hc, d, hd, -, rfl⟩ := hs
    exact (((txBufSet_change ha).trans (txBufSet_change hb)).trans (sendLoop_change hc)).trans
      (txBufSet_change hd)

end TxChange

/-! ## The ring queue behind the counters -/

section Ring

/-- The counters and bytes of `h` describe the ring queue `q`. -/
structure RingAt (h : PacketHandler len) (q : RingQueue UInt8 packetSizeMax) : Prop where
  cells : h.txBuffer = q.cells
  start : h.txStart = q.start
  tail : h.txEnd = ((q.start + q.size) % packetSizeMax : ℕ)
  size : h.txSize = q.size

theorem txCell_of {i : ℕ} (hi : i < packetSizeMax) : txCell (i : ℤ) = some ⟨i, hi⟩ := by
  have h : 0 ≤ (i : ℤ) ∧ (i : ℤ) < packetSizeMax := by omega
  rw [txCell, dif_pos h]
  rfl

variable {h : PacketHandler len} {q : RingQueue UInt8 packetSizeMax}

theorem RingAt.queue (hq : RingAt h q) : h.txQueue = q.toList := by
  rw [PacketHandler.txQueue, hq.size, hq.start, hq.cells, RingQueue.toList, Int.toNat_natCast,
    ← List.filterMap_eq_map]
  refine List.filterMap_congr fun i _ => ?_
  have hm : ((q.start : ℤ) + (i : ℤ)) % (packetSizeMax : ℤ) = ((q.slot i : ℕ) : ℤ) := by
    rw [RingQueue.slot]
    push_cast
    rfl
  rw [hm, txCell_of (q.slot i).isLt]
  rfl

theorem initialized_ring (h : PacketHandler len) :
    RingAt h.initialized (RingQueue.empty h.txBuffer (by decide)) :=
  ⟨rfl, rfl, rfl, rfl⟩

/-- A put is the queue's `put`. -/
theorem txBufSet_ring (hq : RingAt h q) (c : UInt8) (hroom : q.size < packetSizeMax) :
    ∃ h', h.txBufSet c = some h' ∧ RingAt h' (q.put c hroom) := by
  have hfull : ¬ h.txSize ≥ packetSizeMax := by
    rw [hq.size]
    omega
  have hcell : txCell h.txEnd = some (q.slot q.size) := by
    rw [hq.tail, txCell_of (Nat.mod_lt _ (by decide))]
    rfl
  refine ⟨_, by rw [PacketHandler.txBufSet, if_neg hfull, hcell, Option.map_some], ?_⟩
  have hlt : (q.start + q.size) % packetSizeMax < packetSizeMax := Nat.mod_lt _ (by decide)
  have hnext := RingQueue.next_mod hlt
  refine ⟨?_, hq.start, ?_, ?_⟩
  · simp only [hq.cells]
    rfl
  · have hput : (q.start + (q.size + 1)) % packetSizeMax =
        ((q.start + q.size) % packetSizeMax + 1) % packetSizeMax := by
      rw [Nat.mod_add_mod, Nat.add_assoc]
    simp only [bufferPut, RingQueue.put, hput, hnext, hq.tail]
    split_ifs <;> omega
  · simp only [bufferPut, RingQueue.put, hq.size]
    push_cast
    rfl

/-- On an empty ring `txByte` changes nothing and returns `0`. -/
theorem txByte_empty (hq : RingAt h q) (h0 : q.size = 0) : h.txByte = some (h, some 0) := by
  have hsize : h.txSize = 0 := by rw [hq.size, h0]; rfl
  rw [PacketHandler.txByte, PacketHandler.txBufGet, if_pos hsize]

/-- On a ring that holds a byte `txByte` is the queue's `pop`, and the value it returns is not
determined. -/
theorem txByte_ring (hq : RingAt h q) (hpos : 0 < q.size) :
    ∃ h', h.txByte = some (h', none) ∧ RingAt h' (q.pop hpos) := by
  have hsize : ¬ h.txSize = 0 := by
    rw [hq.size]
    omega
  have hcell : txCell h.txStart = some ⟨q.start, q.start_lt⟩ := by
    rw [hq.start, txCell_of q.start_lt]
  refine ⟨_, by rw [PacketHandler.txByte, PacketHandler.txBufGet, if_neg hsize, hcell,
    Option.map_some], ?_⟩
  have hnext := RingQueue.next_mod q.start_lt
  refine ⟨hq.cells, ?_, ?_, ?_⟩
  · simp only [bufferGet, RingQueue.pop, hnext, hq.start]
    split_ifs <;> omega
  · have hpop : ((q.start + 1) % packetSizeMax + (q.size - 1)) % packetSizeMax =
        (q.start + q.size) % packetSizeMax := by
      rw [Nat.mod_add_mod]
      congr 1
      omega
    simp only [RingQueue.pop, hpop, hq.tail]
  · simp only [bufferGet, RingQueue.pop, hq.size]
    omega

theorem txHead_ring (hq : RingAt h q) (hpos : 0 < q.size) :
    h.txHead = some (q.cells (q.slot 0)) := by
  have hsize : ¬ h.txSize = 0 := by
    rw [hq.size]
    omega
  have hslot : q.slot 0 = ⟨q.start, q.start_lt⟩ := by
    simp [RingQueue.slot, Nat.mod_eq_of_lt q.start_lt]
  rw [PacketHandler.txHead, if_neg hsize, hq.start, txCell_of q.start_lt, hslot, hq.cells]
  rfl

theorem txHead_empty (hq : RingAt h q) (h0 : q.size = 0) : h.txHead = none := by
  have hsize : h.txSize = 0 := by rw [hq.size, h0]; rfl
  rw [PacketHandler.txHead, if_pos hsize]

/-- The loop puts the first `size` bytes of the object. -/
theorem sendLoop_ring (hq : RingAt h q) {size : ℕ} {buf : List UInt8} (hbuf : size ≤ buf.length)
    (hroom : q.size + size ≤ packetSizeMax) :
    ∃ h' q', h.sendLoop size buf = some h' ∧ RingAt h' q' ∧
      q'.toList = q.toList ++ buf.take size ∧ q'.size = q.size + size := by
  induction size generalizing h q buf with
  | zero => exact ⟨h, q, rfl, hq, by simp, rfl⟩
  | succ size ih =>
    cases buf with
    | nil => simp at hbuf
    | cons c buf =>
      obtain ⟨h1, he1, hq1⟩ := txBufSet_ring hq c (by omega)
      have hs1 : (q.put c (by omega)).size = q.size + 1 := rfl
      have hbuf1 : size ≤ buf.length := by
        simp only [List.length_cons] at hbuf
        omega
      obtain ⟨h2, q2, he2, hq2, hl2, hs2⟩ := ih hq1 hbuf1 (by omega)
      refine ⟨h2, q2, by rw [PacketHandler.sendLoop, he1, Option.bind_some, he2], hq2, ?_, by omega⟩
      rw [hl2, RingQueue.toList_put]
      simp

/-- **Send**: with room for the whole frame it is queued whole, otherwise nothing happens. -/
theorem sendPacket_ring (hq : RingAt h q) (p : Packet) :
    (packetSizeMax < q.size + (p.size.toNat + 3) ∧ h.sendPacket p = some (.txBufferFull, h)) ∨
    (q.size + (p.size.toNat + 3) ≤ packetSizeMax ∧
      ∃ h' q', h.sendPacket p = some (.success, h') ∧ RingAt h' q' ∧
        q'.toList = q.toList ++ p.frame) := by
  by_cases hfull : packetSizeMax < q.size + (p.size.toNat + 3)
  · have hlt : (packetSizeMax : ℤ) - h.txSize < (p.size.toNat : ℤ) + 3 := by
      rw [hq.size]
      omega
    refine Or.inl ⟨hfull, ?_⟩
    simp only [PacketHandler.sendPacket, if_pos hlt]
  · have hlt : ¬ (packetSizeMax : ℤ) - h.txSize < (p.size.toNat : ℤ) + 3 := by
      rw [hq.size]
      omega
    refine Or.inr ⟨by omega, ?_⟩
    obtain ⟨h1, he1, hq1⟩ := txBufSet_ring hq 0xAA (by omega)
    have hs1 : (q.put 0xAA (by omega)).size = q.size + 1 := rfl
    obtain ⟨h2, he2, hq2⟩ := txBufSet_ring hq1 0x55 (by omega)
    have hs2 : ((q.put 0xAA (by omega)).put 0x55 (by omega)).size = q.size + 2 := rfl
    obtain ⟨h3, q3, he3, hq3, hl3, hs3⟩ := sendLoop_ring hq2 p.size_le (by
      show _ + p.size.toNat ≤ _
      omega)
    obtain ⟨h4, he4, hq4⟩ := txBufSet_ring hq3 0xFF (by
      have : q3.size = q.size + 2 + p.size.toNat := hs3
      omega)
    refine ⟨h4, _, ?_, hq4, ?_⟩
    · unfold Packet.size at hlt
      simp only [PacketHandler.sendPacket, Packet.size, if_neg hlt, Option.bind_eq_bind, he1,
        Option.bind_some, he2, he3, he4]
      rfl
    · rw [RingQueue.toList_put, hl3, RingQueue.toList_put, RingQueue.toList_put]
      simp [Packet.frame, Packet.content, Packet.size]

end Ring

end Ulisse
