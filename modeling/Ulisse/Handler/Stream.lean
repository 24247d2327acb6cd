import Ulisse.Handler.RxRuns
import Ulisse.Handler.TxQueue

/-!
# Handler.Stream — decoding undoes encoding

The bytes that leave a sender's ring, fed to a receiver whose table takes the packets, come out as
the packets that were accepted: each once, in order and byte for byte, whatever the payloads are and
however sends and removals interleave (`decode_encode`).
-/

namespace Ulisse

open BlockMem Run Framing

variable {β γ : Type} {len : β → ℕ} {room : γ → ℕ}

/-- The operation is installed for packets like `p`: their type, their size, and a buffer for them
on every request. -/
structure Takes (operations : Fin packetTypeMax → Option (PacketOperations len))
    (op : PacketOperations len) (p : Packet) : Prop where
  installed : lookup operations p.type = some op
  type : op.type = p.type
  size : op.size = p.size
  size_ge : 4 ≤ p.size.toNat
  size_le : p.size.toNat ≤ 251
  fits : op.BufferFits
  gives : op.NeverRefuses

section Packets

variable {operations : Fin packetTypeMax → Option (PacketOperations len)}
  {op : PacketOperations len} {p : Packet}

/-- The sent bytes begin with type and size. -/
theorem Packet.content_eq (h2 : 2 ≤ p.size.toNat) :
    p.content = p.type :: p.size :: p.content.drop 2 := by
  have hle := p.header_le
  obtain ⟨bytes, h4, hsize⟩ := p
  rcases bytes with _ | ⟨a, _ | ⟨b, rest⟩⟩
  · exact absurd h4 (by decide)
  · exact absurd h4 (by simp [sizeofPacketHeader])
  · obtain ⟨n, hn⟩ : ∃ n, b.toNat = n + 2 := ⟨b.toNat - 2, by
      have : 2 ≤ b.toNat := h2
      omega⟩
    show (a :: b :: rest).take b.toNat = a :: b :: ((a :: b :: rest).take b.toNat).drop 2
    rw [hn]
    rfl

/-- The frame that is sent is the frame that the operation expects. -/
theorem Takes.frame_eq (h : Takes operations op p) :
    p.frame = frameOf op (p.content.drop 2) ∧ p.content = packetOf op (p.content.drop 2) := by
  have h4 := h.size_ge
  have hc := Packet.content_eq (p := p) (by omega)
  have hpacket : p.content = packetOf op (p.content.drop 2) := by
    rw [packetOf, h.type, h.size]
    exact hc
  refine ⟨?_, hpacket⟩
  rw [Packet.frame, frameOf, ← hpacket]

theorem Takes.fixed (h : Takes operations op p) : op.Fixed := by
  have h4 := h.size_ge
  have h251 := h.size_le
  refine ⟨?_, ?_, h.fits⟩
  · rw [h.size]
    omega
  · rw [h.size, packetSizeMax]
    omega

variable [DecidableEq β] {s : RxState len}

/-- **A stream of frames** is taken in packet by packet. -/
theorem rxRun_packets (opOf : UInt8 → PacketOperations len) (ps : List Packet)
    (htakes : ∀ p ∈ ps, Takes operations (opOf p.type) p) (hr : RxAt operations s .hunt) :
    ∃ s' rs, run rxByte s (ps.flatMap Packet.frame) = some (s', rs) ∧ RxAt operations s' .hunt ∧
      deliveries rs = ps.flatMap fun p => (opOf p.type).deliver p.content := by
  induction ps generalizing s with
  | nil => exact ⟨s, [], rfl, hr, rfl⟩
  | cons p ps ih =>
    have hp := htakes p List.mem_cons_self
    obtain ⟨hframe, hcontent⟩ := hp.frame_eq
    have hl : lookup operations (opOf p.type).type = some (opOf p.type) := by
      rw [hp.type]
      exact hp.installed
    have hlen : 2 + (p.content.drop 2).length = (opOf p.type).size.toNat := by
      have h4 := hp.size_ge
      rw [List.length_drop, Packet.length_content, hp.size]
      omega
    obtain ⟨s₁, rs₁, hrun₁, hr₁, hdel₁⟩ := rxRun_frame hp.fixed hp.gives hl hlen hr
    obtain ⟨s₂, rs₂, hrun₂, hr₂, hdel₂⟩ := ih (fun q hq => htakes q (List.mem_cons_of_mem _ hq)) hr₁
    refine ⟨s₂, rs₁ ++ rs₂, ?_, hr₂, ?_⟩
    · rw [List.flatMap_cons, hframe]
      exact run_append_of hrun₁ hrun₂
    · rw [deliveries_append, hdel₁, hdel₂, List.flatMap_cons, ← hcontent]

end Packets

variable [DecidableEq β]

/-- **Decode undoes encode**: for every interleaving of sends and removals at a sender, a hunting
receiver that takes the accepted packets gets each of them once, in order and whole, from the bytes
removed and the bytes still queued, and hunts again. -/
theorem decode_encode {sender sender' : PacketHandler room} {calls : List TxCall}
    {rs : List TxReturn} (he : run txStep sender.initialized calls = some (sender', rs))
    (s : RxState len) (hs : s.h.rxFn = .rxAA) (opOf : UInt8 → PacketOperations len)
    (htakes : ∀ p ∈ accepted rs, Takes s.h.operations (opOf p.type) p) :
    ∃ s' qs, run rxByte s (removed rs ++ sender'.txQueue) = some (s', qs) ∧
      s'.h.rxFn = .rxAA ∧ s'.h.operations = s.h.operations ∧
      deliveries qs = (accepted rs).flatMap fun p => (opOf p.type).deliver p.content := by
  have hq := initialized_ring sender
  have hwire := txRun_conserves hq he
  rw [hq.queue, RingQueue.toList_empty, List.nil_append] at hwire
  obtain ⟨s', qs, hrun, hr', hdel⟩ := rxRun_packets opOf (accepted rs) htakes (RxAt.hunting hs)
  rw [hwire] at hrun
  exact ⟨s', qs, hrun, hr'.fields, hr'.table, hdel⟩

/-- A packet of type `2` whose payload looks like a frame. -/
def framedPacket : Packet := ⟨[2, 8, 0xAA, 0x55, 2, 8, 0xFF, 0xFF], by decide, by decide⟩

/-- Two such packets with a byte removed in between reach the listener for them. -/
theorem decode_encode_framed :
    ∃ (sender' : PacketHandler oneBlock) (rs : List TxReturn) (s' : RxState oneBlock)
        (qs : List (RxReturn oneBlock)),
      run txStep zeroHandler.initialized
        [.sendPacket framedPacket, .txByte, .sendPacket framedPacket] = some (sender', rs) ∧
      run rxByte (listener 2 8) (removed rs ++ sender'.txQueue) = some (s', qs) ∧
      deliveries qs =
        [⟨bufferedOp 2 8, framedPacket.content⟩, ⟨bufferedOp 2 8, framedPacket.content⟩] := by
  have htakes : Takes (listener 2 8).h.operations (bufferedOp 2 8) framedPacket :=
    ⟨(listener_lookup (by decide)).mpr ⟨rfl, rfl⟩, rfl, rfl, by decide, by decide,
      bufferedOp_fits, bufferedOp_neverRefuses⟩
  obtain ⟨sender', rs, he⟩ : ∃ (sender' : PacketHandler oneBlock) (rs : List TxReturn),
      run txStep zeroHandler.initialized
        [.sendPacket framedPacket, .txByte, .sendPacket framedPacket] = some (sender', rs) :=
    ⟨_, _, rfl⟩
  have hacc : accepted rs = [framedPacket, framedPacket] := by
    have hmap : (run txStep (zeroHandler : PacketHandler oneBlock).initialized
        [.sendPacket framedPacket, .txByte, .sendPacket framedPacket]).map
          (fun q => accepted q.2) = some [framedPacket, framedPacket] := rfl
    rw [he] at hmap
    exact Option.some_inj.mp hmap
  obtain ⟨s', qs, hrun, -, -, hdel⟩ := decode_encode he (listener 2 8) (listener_rxFn (by decide))
    (fun _ => bufferedOp 2 8) (by
      intro p hp
      rw [hacc] at hp
      rcases List.mem_cons.mp hp with rfl | hp
      · exact htakes
      · rw [List.mem_singleton.mp hp]
        exact htakes)
  refine ⟨sender', rs, s', qs, he, hrun, ?_⟩
  rw [hdel, hacc]
  rfl

end Ulisse
