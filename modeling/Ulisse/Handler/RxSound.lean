import Ulisse.Handler.RxRuns

/-!
# Handler.RxSound — the receiver delivers only what stands in the stream

Soundness over every byte stream: each delivery is a segment `AA 55 t s p₁ … p₍ₛ₋₂₎ FF` of the
stream for an installed operation, the segments are disjoint and in order, and the answer
`SyncChecksum` marks their last bytes (`rx_sound`).
-/

namespace Ulisse

open BlockMem Run Framing

variable {β : Type} {len : β → ℕ}

/-- A stretch of a stream from `start` on that holds a packet of `op`. -/
structure RxSegment {β : Type} (len : β → ℕ) where
  start : ℕ
  op : PacketOperations len
  payload : List UInt8

namespace RxSegment

/-- The packet: type, size and what follows them. -/
def packet (g : RxSegment len) : List UInt8 := packetOf g.op g.payload

/-- The bytes of the segment. -/
def frame (g : RxSegment len) : List UInt8 := frameOf g.op g.payload

/-- The position behind the segment. -/
def behind (g : RxSegment len) : ℕ := g.start + g.frame.length

/-- The segment stands in the stream `bs`, and its operation is the one installed for its type. -/
structure StandsIn (operations : Fin packetTypeMax → Option (PacketOperations len))
    (bs : List UInt8) (g : RxSegment len) : Prop where
  installed : lookup operations g.op.type = some g.op
  length : g.packet.length = g.op.size.toNat
  here : g.frame <+: bs.drop g.start

/-- The segment of a frame that the hunter completes. -/
def ofSegment (g : Segment UInt8 (PacketOperations len)) : RxSegment len :=
  ⟨g.start, g.op, g.frame.body⟩

end RxSegment

section OfSegment

variable {operations : Fin packetTypeMax → Option (PacketOperations len)} {bs : List UInt8}
  {g : Segment UInt8 (PacketOperations len)} {segs : List (Segment UInt8 (PacketOperations len))}
  {es : List (Event UInt8 (PacketOperations len))} {rs : List (RxReturn len)}

/-- Where operations stand in the slots of their types, the segments of the hunter are segments of
the stream. -/
theorem RxSegment.ofSegment_occurs
    (hown : ∀ t op, lookup operations t = some op → op.type = t) (hfix : FixedTable operations)
    (h : (rxScheme operations).Occurs bs g) :
    (RxSegment.ofSegment g).StandsIn operations bs ∧
      (RxSegment.ofSegment g).behind = (rxScheme operations).behind g ∧
      rebuilt g.op g.frame = (RxSegment.ofSegment g).packet := by
  have hlook : lookup operations g.frame.tag = some g.op := h.fits.look
  have htype : g.op.type = g.frame.tag := hown _ _ hlook
  obtain ⟨-, hlen, hbody⟩ := (hfix _ _ hlook).fits_iff.mp h.fits
  have hwire : (RxSegment.ofSegment g).frame = (rxScheme operations).wire g.frame := by
    show 0xAA :: 0x55 :: g.op.type :: g.op.size :: (g.frame.body ++ [0xFF]) = _
    rw [htype, ← hlen]
    rfl
  refine ⟨⟨?_, ?_, ?_⟩, ?_, rebuilt_of_length hbody⟩
  · show lookup operations g.op.type = some g.op
    rw [htype]
    exact hlook
  · show g.frame.body.length + 1 + 1 = g.op.size.toNat
    omega
  · rw [hwire]
    exact h.here
  · rw [RxSegment.behind, hwire]
    rfl

variable (hown : ∀ t op, lookup operations t = some op → op.type = t) (hfix : FixedTable operations)
  (hacc : (rxScheme operations).Accounts bs es segs)
include hown hfix hacc

theorem segments_standIn : ∀ g ∈ segs.map RxSegment.ofSegment, g.StandsIn operations bs := by
  intro g hg
  obtain ⟨g₀, hg₀, rfl⟩ := List.mem_map.mp hg
  exact (RxSegment.ofSegment_occurs hown hfix (hacc.occurs g₀ hg₀)).1

theorem segments_apart :
    (segs.map RxSegment.ofSegment).Pairwise fun a b => a.behind ≤ b.start := by
  rw [List.pairwise_map]
  refine hacc.apart.imp_of_mem fun ha hb hab => ?_
  rw [(RxSegment.ofSegment_occurs hown hfix (hacc.occurs _ ha)).2.1]
  exact hab

/-- **Deliveries are segments** of the stream. -/
theorem deliveries_segments (hans : List.Forall₂ Answers rs es) :
    deliveries rs = (segs.map RxSegment.ofSegment).flatMap fun g => g.op.deliver g.packet := by
  rw [deliveries_of_answers hans (dones_size hacc hfix.size_ne), hacc.dones, List.flatMap_map,
    List.flatMap_map]
  apply List.flatMap_congr
  intro g hg
  rw [(RxSegment.ofSegment_occurs hown hfix (hacc.occurs g hg)).2.2]
  rfl

end OfSegment

variable [DecidableEq β]

/-- **Soundness**: over a filled table of fixed-size operations, whatever bytes arrive, the
deliveries are disjoint segments of the stream in order, and `SyncChecksum` answers exactly their
last bytes. -/
theorem rx_sound (s : RxState len) (hs : s.h.rxFn = .rxAA) (hfill : Filled s.h.operations)
    (hfix : FixedTable s.h.operations) (bs : List UInt8) :
    ∃ (s' : RxState len) (rs : List (RxReturn len)) (segs : List (RxSegment len)),
      run rxByte s bs = some (s', rs) ∧
      (∀ g ∈ segs, g.StandsIn s.h.operations bs) ∧
      segs.Pairwise (fun a b => a.behind ≤ b.start) ∧
      deliveries rs = segs.flatMap (fun g => g.op.deliver g.packet) ∧
      (∀ (i : ℕ) (r : RxReturn len), rs[i]? = some r → r.status = .syncChecksum →
        ∃ g ∈ segs, g.behind = i + 1 ∧ deliveries [r] = g.op.deliver g.packet) ∧
      (∀ r ∈ rs, r.status ≠ .syncChecksum → deliveries [r] = []) ∧
      ((¬ ∃ g, RxSegment.StandsIn s.h.operations bs g) → deliveries rs = []) := by
  have hr := RxAt.hunting hs
  obtain ⟨s', rs, es, ph, hrun, htr, -, -, hans⟩ := rxRun_total hfix hr trivial bs
  obtain ⟨segs, hacc, -⟩ := htr.sound
  have hown : ∀ t op, lookup s.h.operations t = some op → op.type = t := fun _ _ => hfill.type_eq
  have hdel := deliveries_segments hown hfix hacc hans
  have hstands := segments_standIn hown hfix hacc
  refine ⟨s', rs, segs.map RxSegment.ofSegment, hrun, hstands, segments_apart hown hfix hacc, hdel,
    ?_, ?_, ?_⟩
  · intro i r hi hstatus
    obtain ⟨e, he, ha⟩ := forall₂_getElem? hans hi
    obtain ⟨op, f, rfl⟩ := ha.syncChecksum_iff.mp hstatus
    obtain ⟨g, hg, rfl, rfl, hbehind⟩ := hacc.ends i op f he
    have hocc := hacc.occurs g hg
    obtain ⟨-, hend, hpacket⟩ := RxSegment.ofSegment_occurs hown hfix hocc
    refine ⟨_, List.mem_map_of_mem hg, hend.trans hbehind, ?_⟩
    rw [ha.deliver rfl ((hfix _ _ hocc.fits.look).fits_iff.mp hocc.fits).2.2.ge, hpacket]
    rfl
  · intro r hmem hstatus
    obtain ⟨i, hi⟩ := List.getElem?_of_mem hmem
    obtain ⟨e, he, ha⟩ := forall₂_getElem? hans hi
    apply ha.quiet_deliveries
    cases hd : e.done? with
    | none => rfl
    | some d => exact absurd (ha.syncChecksum_iff.mpr ⟨_, _, done_of_done? hd⟩) hstatus
  · intro hno
    rw [hdel]
    cases segs with
    | nil => rfl
    | cons g _ => exact absurd ⟨_, hstands _ (List.mem_cons_self ..)⟩ hno

/-- A listener for type `2`, size `6` gets the packet of a whole frame behind a stray byte. -/
theorem rx_sound_listener :
    ∃ (s' : RxState oneBlock) (rs : List (RxReturn oneBlock))
      (segs : List (RxSegment oneBlock)),
      run rxByte (listener 2 6) [7, 0xAA, 0x55, 2, 6, 0xAA, 0x55, 2, 6, 0xFF] = some (s', rs) ∧
      (∀ g ∈ segs, g.StandsIn (listener 2 6).h.operations
        [7, 0xAA, 0x55, 2, 6, 0xAA, 0x55, 2, 6, 0xFF]) ∧
      segs.Pairwise (fun a b => a.behind ≤ b.start) ∧
      deliveries rs = segs.flatMap (fun g => g.op.deliver g.packet) ∧
      (deliveries rs).map Delivery.packet = [[2, 6, 0xAA, 0x55, 2, 6]] := by
  obtain ⟨s', rs, segs, hrun, hstands, hap, hdel, -⟩ := rx_sound (listener 2 6)
    (listener_rxFn (by decide)) (listener_filled (by decide))
    (listener_fixed (by decide) (by decide) (by decide))
    [7, 0xAA, 0x55, 2, 6, 0xAA, 0x55, 2, 6, 0xFF]
  have hpacket : (run rxByte (listener 2 6) [7, 0xAA, 0x55, 2, 6, 0xAA, 0x55, 2, 6, 0xFF]).map
      (fun q => (deliveries q.2).map Delivery.packet) = some [[2, 6, 0xAA, 0x55, 2, 6]] := by
    decide +kernel
  rw [hrun] at hpacket
  exact ⟨s', rs, segs, hrun, hstands, hap, hdel, Option.some_inj.mp hpacket⟩

end Ulisse
