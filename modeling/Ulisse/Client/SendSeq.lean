import Ulisse.Client.Ack

/-!
# Client.SendSeq — the numbers of the packets that are queued

`_sendPacket` counts `global_seq` up before it looks at the packet, and writes `seq` before the ring
is asked for room.  So the counter numbers the calls, and not the packets queued: a call that fails
leaves a gap (`queueStep_send`).
-/

namespace Ulisse

open Run

/-- A deferred send, or something that takes bytes out of the transmit ring. -/
inductive QueueCall where
  | sendPacket (p : Packet)
  | txByte
  | flushBuffer

/-- What it returns: of a send the status and the caller's packet behind it. -/
inductive QueueReturn where
  | sent (status : PacketStatus) (p : Packet)
  | flushed

/-- One call at the client; sends have `timeout` 0. -/
def queueStep (cl : UlisseClient) : QueueCall → Option (UlisseClient × QueueReturn)
  | .sendPacket p =>
    (cl.sendPacket p 0 []).toOption.map fun ret => (ret.client, .sent ret.status ret.packet)
  | .txByte => cl.packetHandler.txByte.map fun x => ({ cl with packetHandler := x.1 }, .flushed)
  | .flushBuffer => (Client.flushBuffer cl).map fun x => (x.1, .flushed)

/-- The `seq` of the packet, if it was queued. -/
def QueueReturn.seq? : QueueReturn → Option UInt16
  | .sent .success p => some p.seq
  | _ => none

/-- The `seq` fields queued in a run. -/
def sentSeqs (rs : List QueueReturn) : List UInt16 := rs.filterMap QueueReturn.seq?

/-- The `n` numbers behind `s`, modulo `2 ^ 16`. -/
def numbersFrom (s : UInt16) (n : ℕ) : List UInt16 :=
  (List.range n).map fun i => s + 1 + UInt16.ofNat i

/-- A send that fails leaves the client and the packet as they were. -/
def FailsCleanly (cl : UlisseClient) : QueueCall → Prop
  | .sendPacket p => ∀ cl' status p', queueStep cl (.sendPacket p) = some (cl', .sent status p') →
      status = .unknownType ∨ status = .invalidSize ∨ status = .txBufferFull → cl' = cl ∧ p' = p
  | _ => True

/-- In the run of `calls` the packets queued are numbered without gaps, and no failing send has an
effect. -/
structure Numbered (cl : UlisseClient) (calls : List QueueCall) : Prop where
  seqs : ∀ cl' rs, run queueStep cl calls = some (cl', rs) →
    sentSeqs rs = numbersFrom cl.globalSeq (sentSeqs rs).length
  clean : Along queueStep (fun _ _ => FailsCleanly) cl calls

/-- The packet of a send can be sent. -/
def SendsFit (cl : UlisseClient) : QueueCall → Prop
  | .sendPacket p => SendFits cl p
  | _ => True

theorem numbersFrom_succ (s : UInt16) (n : ℕ) :
    numbersFrom s (n + 1) = numbersFrom s n ++ [s + 1 + UInt16.ofNat n] := by
  rw [numbersFrom, List.range_succ, List.map_append]
  rfl

section Step

variable {cl cl' : UlisseClient} {q : RingQueue UInt8 packetSizeMax} {p : Packet}

/-- **Send**: the counter goes up in any case; the packet is queued under that number if it fits,
and otherwise the ring stays as it is. -/
theorem queueStep_send (hq : RingAt cl.packetHandler q) (p : Packet) :
    (SendFits cl p ∧ ∃ h' q', queueStep cl (.sendPacket p) =
        some ({ cl with globalSeq := cl.globalSeq + 1, packetHandler := h' },
          .sent .success (p.setSeq (cl.globalSeq + 1))) ∧ RingAt h' q') ∨
    (¬ SendFits cl p ∧ ∃ status p', queueStep cl (.sendPacket p) =
        some ({ cl with globalSeq := cl.globalSeq + 1 }, .sent status p') ∧
      (status = .unknownType ∨ status = .invalidSize ∨ status = .txBufferFull)) := by
  have hcall : ∀ {status cl' p'}, Client.sendPacket cl p = some (status, cl', p') →
      queueStep cl (.sendPacket p) = some (cl', .sent status p') := by
    intro status cl' p' hx
    simp only [queueStep, UlisseClient.sendPacket, hx]
    rfl
  have hsize := hq.size
  by_cases ht : p.type.toNat < packetTypeMax
  · by_cases h0 : cl.packetSizes ⟨p.type.toNat, ht⟩ = 0
    · refine Or.inr ⟨fun hf => hf.known h0, .unknownType, p, hcall ?_, Or.inl rfl⟩
      simp only [Client.sendPacket, dif_pos ht, if_pos h0]
    · by_cases hne : p.size ≠ cl.packetSizes ⟨p.type.toNat, ht⟩
      · refine Or.inr ⟨fun hf => hne hf.size, .invalidSize, p, hcall ?_, Or.inr (Or.inl rfl)⟩
        simp only [Client.sendPacket, dif_pos ht, if_neg h0, if_pos hne]
      · have hcounted : (p.setSeq (cl.globalSeq + 1)).size = p.size := Packet.setSeq_size _ _
        rcases sendPacket_ring hq (p.setSeq (cl.globalSeq + 1)) with
          ⟨hfull, hs⟩ | ⟨hroom, h', q', hs, hq', -⟩
        · rw [hcounted] at hfull
          refine Or.inr ⟨fun hf => ?_, .txBufferFull, p.setSeq (cl.globalSeq + 1), hcall ?_,
            Or.inr (Or.inr rfl)⟩
          · have hroom := hf.room
            omega
          · simp only [Client.sendPacket, dif_pos ht, if_neg h0, if_neg hne, hs, Option.map_some]
        · rw [hcounted] at hroom
          refine Or.inl ⟨⟨ht, h0, not_not.mp hne, by omega⟩, h', q', hcall ?_, hq'⟩
          simp only [Client.sendPacket, dif_pos ht, if_neg h0, if_neg hne, hs, Option.map_some]
  · refine Or.inr ⟨fun hf => ht hf.type, .unknownType, p, hcall ?_, Or.inl rfl⟩
    simp only [Client.sendPacket, dif_neg ht]

/-- Taking bytes out of the ring does not count. -/
theorem queueStep_flush (hq : RingAt cl.packetHandler q) {c : QueueCall}
    (hc : ∀ p, c ≠ .sendPacket p) :
    ∃ h' q', queueStep cl c = some ({ cl with packetHandler := h' }, .flushed) ∧ RingAt h' q' := by
  cases c with
  | sendPacket p => exact absurd rfl (hc p)
  | txByte =>
    rcases Nat.eq_zero_or_pos q.size with h0 | hpos
    · exact ⟨cl.packetHandler, q, by rw [queueStep, txByte_empty hq h0]; rfl, hq⟩
    · obtain ⟨h', hb, hq'⟩ := txByte_ring hq hpos
      exact ⟨h', _, by rw [queueStep, hb]; rfl, hq'⟩
  | flushBuffer =>
    obtain ⟨h', q', hf, hq', -⟩ := flushLoop_ring hq
    have hsize : cl.packetHandler.txSize.toNat = q.size := by
      rw [hq.size]
      rfl
    exact ⟨h', q', by rw [queueStep, Client.flushBuffer, hsize, hf]; rfl, hq'⟩

/-- **One call** is defined, keeps the ring a ring, and counts if it is a send. -/
theorem queueStep_defined (hq : RingAt cl.packetHandler q) (c : QueueCall) :
    ∃ cl' r q', queueStep cl c = some (cl', r) ∧ RingAt cl'.packetHandler q' := by
  by_cases hc : ∃ p, c = .sendPacket p
  · obtain ⟨p, rfl⟩ := hc
    rcases queueStep_send hq p with ⟨-, h', q', he, hq'⟩ | ⟨-, status, p', he, -⟩
    · exact ⟨_, _, q', he, hq'⟩
    · exact ⟨_, _, q, he, hq⟩
  · obtain ⟨h', q', he, hq'⟩ := queueStep_flush hq fun p h => hc ⟨p, h⟩
    exact ⟨_, _, q', he, hq'⟩

/-- One call whose packet fits continues the numbering. -/
theorem queueStep_fits (hq : RingAt cl.packetHandler q) {c : QueueCall} {r : QueueReturn}
    (hfit : SendsFit cl c) (he : queueStep cl c = some (cl', r)) :
    (∃ q', RingAt cl'.packetHandler q') ∧
      cl'.globalSeq = cl.globalSeq + UInt16.ofNat (sentSeqs [r]).length ∧
      sentSeqs [r] = numbersFrom cl.globalSeq (sentSeqs [r]).length := by
  by_cases hc : ∃ p, c = .sendPacket p
  · obtain ⟨p, rfl⟩ := hc
    rcases queueStep_send hq p with ⟨-, h', q', hs, hq'⟩ | ⟨hno, -⟩
    · obtain ⟨rfl, rfl⟩ := result_unique he hs
      have hseq : sentSeqs [.sent .success (p.setSeq (cl.globalSeq + 1))] =
          [cl.globalSeq + 1] := by
        simp [sentSeqs, QueueReturn.seq?]
      rw [hseq]
      refine ⟨⟨q', hq'⟩, rfl, ?_⟩
      show [cl.globalSeq + 1] = [cl.globalSeq + 1 + 0]
      rw [UInt16.add_zero]
    · exact absurd hfit hno
  · obtain ⟨h', q', hs, hq'⟩ := queueStep_flush hq fun p h => hc ⟨p, h⟩
    obtain ⟨rfl, rfl⟩ := result_unique he hs
    exact ⟨⟨q', hq'⟩, (UInt16.add_zero _).symm, rfl⟩

end Step

section Runs

variable {cl : UlisseClient} {q : RingQueue UInt8 packetSizeMax} {calls : List QueueCall}

theorem numbersFrom_add (s : UInt16) (m n : ℕ) :
    numbersFrom s (m + n) = numbersFrom s m ++ numbersFrom (s + UInt16.ofNat m) n := by
  induction n with
  | zero => simp [numbersFrom]
  | succ n ih =>
    rw [← Nat.add_assoc, numbersFrom_succ, ih, numbersFrom_succ, List.append_assoc]
    congr 3
    rw [UInt16.ofNat_add]
    ac_rfl

/-- **A run** of packets that all fit numbers them from the counter on. -/
theorem queueRun_numbers (hq : RingAt cl.packetHandler q) {cl' : UlisseClient}
    {rs : List QueueReturn} (hfit : Along queueStep (fun _ _ => SendsFit) cl calls)
    (hrun : run queueStep cl calls = some (cl', rs)) :
    (∃ q', RingAt cl'.packetHandler q') ∧
      cl'.globalSeq = cl.globalSeq + UInt16.ofNat (sentSeqs rs).length ∧
      sentSeqs rs = numbersFrom cl.globalSeq (sentSeqs rs).length := by
  refine run_along (P := fun _ _ => SendsFit) (J := fun _ rs cl' =>
    (∃ q', RingAt cl'.packetHandler q') ∧
      cl'.globalSeq = cl.globalSeq + UInt16.ofNat (sentSeqs rs).length ∧
      sentSeqs rs = numbersFrom cl.globalSeq (sentSeqs rs).length)
    ⟨⟨q, hq⟩, (UInt16.add_zero _).symm, rfl⟩ ?_ hfit hrun
  rintro _ rs t c u r ⟨⟨q₁, hq₁⟩, hseq, hnum⟩ hc he
  obtain ⟨hq₂, hseq₂, hnum₂⟩ := queueStep_fits hq₁ hc he
  have happend : sentSeqs (rs ++ [r]) = sentSeqs rs ++ sentSeqs [r] := List.filterMap_append
  rw [happend, List.length_append, numbersFrom_add, ← hseq, ← hnum, ← hnum₂]
  refine ⟨hq₂, ?_, rfl⟩
  rw [hseq₂, hseq, UInt16.ofNat_add, UInt16.add_assoc]

end Runs

instance (cl : UlisseClient) (p : Packet) : Decidable (SendFits cl p) :=
  decidable_of_iff
    (∃ ht : p.type.toNat < packetTypeMax, cl.packetSizes ⟨p.type.toNat, ht⟩ ≠ 0 ∧
      p.size = cl.packetSizes ⟨p.type.toNat, ht⟩ ∧
      cl.packetHandler.txSize + (p.size.toNat + 3) ≤ packetSizeMax)
    ⟨fun ⟨ht, h0, hsize, hroom⟩ => ⟨ht, h0, hsize, hroom⟩,
      fun h => ⟨h.type, h.known, h.size, h.room⟩⟩

instance (cl : UlisseClient) (c : QueueCall) : Decidable (SendsFit cl c) :=
  match c with
  | .sendPacket p => inferInstanceAs (Decidable (SendFits cl p))
  | .txByte => .isTrue trivial
  | .flushBuffer => .isTrue trivial

/-- A packet of a type that the client does not send. -/
def strayPacket : Packet := ⟨[3, 4, 0, 0], by decide, by decide⟩

end Ulisse
