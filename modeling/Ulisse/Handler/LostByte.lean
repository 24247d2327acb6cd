import Ulisse.Handler.Stream

/-!
# Handler.LostByte — a byte lost on the line

A frame that lost a byte behind its size still begins like a frame of its operation, so the trailer
is taken for the last payload byte and the first byte of the next frame for the trailer.  That is
`0xAA`: the damaged packet is refused, and the rest of the next frame holds no `0xAA` to start from.
-/

namespace Ulisse

open BlockMem Run Framing

variable {β : Type} {len : β → ℕ}

section Damage

variable {operations : Fin packetTypeMax → Option (PacketOperations len)} {s : RxState len}
  {op : PacketOperations len} {p q : Packet} {k : ℕ}

/-- What is left of a frame that lost a byte behind its size: the head, and as many bytes as the
payload has. -/
theorem Packet.frame_eraseIdx (h2 : 2 ≤ p.size.toNat) (h4 : 4 ≤ k) (hk : k < p.frame.length) :
    ∃ rest, p.frame.eraseIdx k = 0xAA :: 0x55 :: p.type :: p.size :: rest ∧
      2 + rest.length = p.size.toNat := by
  obtain ⟨j, rfl⟩ : ∃ j, k = j + 4 := ⟨k - 4, by omega⟩
  have hframe : p.frame = 0xAA :: 0x55 :: p.type :: p.size :: (p.content.drop 2 ++ [0xFF]) := by
    have hc := Packet.content_eq h2
    rw [Packet.frame, hc]
    rfl
  have hlen : (p.content.drop 2).length = p.size.toNat - 2 := by
    rw [List.length_drop, Packet.length_content]
  rw [hframe] at hk ⊢
  simp only [List.length_cons, List.length_append, List.length_nil] at hk
  refine ⟨(p.content.drop 2 ++ [0xFF]).eraseIdx j, rfl, ?_⟩
  rw [List.length_eraseIdx_of_lt (by rw [List.length_append, List.length_singleton]; omega),
    List.length_append, List.length_singleton]
  omega

/-- A frame is free of `0xAA` behind its first byte if the packet is. -/
theorem Packet.frame_tail (h : 0xAA ∉ q.content) :
    q.frame = 0xAA :: (0x55 :: (q.content ++ [0xFF])) ∧ 0xAA ∉ 0x55 :: (q.content ++ [0xFF]) := by
  refine ⟨rfl, ?_⟩
  rw [List.mem_cons, List.mem_append, List.mem_singleton]
  rintro (h1 | h1 | h1)
  · exact absurd h1 (by decide)
  · exact h h1
  · exact absurd h1 (by decide)

/-- Bytes without `0xAA` hold no sync pair, and no run of `0xAA` at their end. -/
theorem no_pair_of_notMem {w : List UInt8} (h : 0xAA ∉ w) :
    ¬ [0xAA, 0x55] <:+: w ∧ trail 0xAA w = 0 := by
  constructor
  · rintro ⟨u, v, rfl⟩
    exact h (by simp)
  · by_contra hne
    obtain ⟨ys, rfl⟩ := trail_pos hne
    exact h (by simp)

variable [DecidableEq β]

/-- **The damaged frame** is read up to its trailer, which is still missing. -/
theorem rxRun_damaged {rest : List UInt8} (hop : op.Fixed) (hnn : op.NeverRefuses)
    (hl : lookup operations op.type = some op) (hlen : 2 + rest.length = op.size.toNat)
    (hr : RxAt operations s .hunt) :
    ∃ s' rs, run rxByte s (0xAA :: 0x55 :: op.type :: op.size :: rest) = some (s', rs) ∧
      RxAt operations s' (.stop op.type op op.size rest) ∧ deliveries rs = [] := by
  have hf : (rxScheme operations).Fits op ⟨op.type, op.size, rest⟩ :=
    hop.fits_iff.mpr ⟨hl, rfl, hlen⟩
  have hstart : (rxScheme operations).Ahead ⟨op.type, op.size, rest⟩ .hunt
      ((0xAA :: 0x55 :: op.type :: op.size :: rest) ++ [0xFF]) := Scheme.Ahead.start _
  obtain ⟨s', rs, ph, hrun, hr', -, hah, hdel⟩ :=
    rxRun_along hop hnn hf (List.cons_ne_nil 0xFF []) hr trivial hstart
  obtain ⟨rfl, -⟩ := ahead_stop hf hah
  exact ⟨s', rs, hrun, hr', hdel⟩

/-- **The next frame** is spent: its first byte refuses the packet, and the others are noise. -/
theorem rxRun_swallowed {t x : UInt8} {got : List UInt8} (hq : 0xAA ∉ q.content)
    (hr : RxAt operations s (.stop t op x got)) :
    ∃ s' rs, run rxByte s q.frame = some (s', rs) ∧ RxAt operations s' .hunt ∧
      deliveries rs = [] := by
  obtain ⟨hframe, htail⟩ := Packet.frame_tail hq
  obtain ⟨s₁, r, he⟩ := rxByte_defined hr trivial trivial 0xAA
  obtain ⟨g, -, hr₁, hans⟩ := rxByte_sim hr he
  have hne : (0xAA : UInt8) ≠ (rxScheme operations).stop := by
    show (0xAA : UInt8) ≠ 0xFF
    decide
  have hstep : (rxScheme operations).step g (.stop t op x got) 0xAA = (.hunt, .badStop) := by
    simp only [Scheme.step, if_neg hne]
  rw [hstep] at hr₁ hans
  obtain ⟨hpair, htrail⟩ := no_pair_of_notMem htail
  obtain ⟨s₂, rs, hrun, hdel, hr₂⟩ := rxRun_noise hr₁ hpair
  rw [htrail, if_pos ⟨0, rfl⟩] at hr₂
  refine ⟨s₂, r :: rs, ?_, hr₂, ?_⟩
  · rw [hframe, run_cons_of he, hrun]
    rfl
  · rw [← List.singleton_append, deliveries_append, hans.quiet_deliveries rfl, hdel]
    rfl

end Damage

variable [DecidableEq β]

/-- **A lost byte** costs at most two frames: the packets in front of the damaged frame `p` are
delivered, `p` and the one behind it are not, and the ones from there on are; the receiver hunts
again at the end of the frame behind `p`. -/
theorem lost_byte {s : RxState len} (hs : s.h.rxFn = .rxAA) (opOf : UInt8 → PacketOperations len)
    (before after : List Packet) (p : Packet)
    (htakes : ∀ q ∈ before ++ p :: after, Takes s.h.operations (opOf q.type) q)
    (hfree : ∀ q ∈ before ++ p :: after, 0xAA ∉ q.content)
    {k : ℕ} (h4 : 4 ≤ k) (hk : k < p.frame.length) :
    ∃ s' rs, run rxByte s (before.flatMap Packet.frame ++ p.frame.eraseIdx k ++
        after.flatMap Packet.frame) = some (s', rs) ∧
      deliveries rs = (before ++ after.drop 1).flatMap (fun q => (opOf q.type).deliver q.content) ∧
      (after ≠ [] → s'.h.rxFn = .rxAA) := by
  have hp := htakes p (List.mem_append_right _ List.mem_cons_self)
  have hbefore : ∀ q ∈ before, Takes s.h.operations (opOf q.type) q := fun q hq =>
    htakes q (List.mem_append_left _ hq)
  obtain ⟨s₁, rs₁, hrun₁, hr₁, hdel₁⟩ := rxRun_packets opOf before hbefore (RxAt.hunting hs)
  -- the damaged frame
  have hsize := hp.size_ge
  obtain ⟨rest, herase, hrest⟩ := Packet.frame_eraseIdx (p := p) (by omega) h4 hk
  have hinst : lookup s.h.operations (opOf p.type).type = some (opOf p.type) := by
    rw [hp.type]
    exact hp.installed
  rw [← hp.type, ← hp.size] at herase
  rw [← hp.size] at hrest
  obtain ⟨s₂, rs₂, hrun₂, hr₂, hdel₂⟩ := rxRun_damaged hp.fixed hp.gives hinst hrest hr₁
  rw [← herase] at hrun₂
  have hrun₁₂ := run_append_of hrun₁ hrun₂
  cases after with
  | nil =>
    refine ⟨s₂, rs₁ ++ rs₂, by simpa using hrun₁₂, ?_, fun h => absurd rfl h⟩
    rw [deliveries_append, hdel₁, hdel₂]
    simp
  | cons q after =>
    -- the frame behind it, and the others
    have hq : q ∈ before ++ p :: q :: after := by simp
    obtain ⟨s₃, rs₃, hrun₃, hr₃, hdel₃⟩ := rxRun_swallowed (hfree q hq) hr₂
    have hafter : ∀ q' ∈ after, Takes s.h.operations (opOf q'.type) q' := fun q' hq' =>
      htakes q' (by simp [hq'])
    obtain ⟨s₄, rs₄, hrun₄, hr₄, hdel₄⟩ := rxRun_packets opOf after hafter hr₃
    refine ⟨s₄, rs₁ ++ rs₂ ++ (rs₃ ++ rs₄), ?_, ?_, fun _ => hr₄.fields⟩
    · rw [List.flatMap_cons]
      exact run_append_of hrun₁₂ (run_append_of hrun₃ hrun₄)
    · rw [deliveries_append, deliveries_append, deliveries_append, hdel₁, hdel₂, hdel₃, hdel₄]
      simp

/-- A packet of type `2` with four bytes behind its head. -/
def countedPacket (n : UInt8) : Packet where
  bytes := [2, 6, n, 0, 7, 0xFF]
  header_le := by simp [sizeofPacketHeader]
  size_le := by simp

/-- Of four packets the listener gets the first and the last, when the second lost its `seq`. -/
theorem lost_byte_listener :
    ∃ s' rs, run rxByte (listener 2 6) ([countedPacket 1].flatMap Packet.frame ++
        (countedPacket 2).frame.eraseIdx 4 ++
        [countedPacket 3, countedPacket 4].flatMap Packet.frame) = some (s', rs) ∧
      deliveries rs = [⟨bufferedOp 2 6, (countedPacket 1).content⟩,
        ⟨bufferedOp 2 6, (countedPacket 4).content⟩] := by
  have htakes : ∀ n, Takes (listener 2 6).h.operations (bufferedOp 2 6) (countedPacket n) :=
    fun n => ⟨(listener_lookup (by decide)).mpr ⟨rfl, rfl⟩, rfl, rfl,
      show 4 ≤ (6 : UInt8).toNat by decide, show (6 : UInt8).toNat ≤ 251 by decide,
      bufferedOp_fits, bufferedOp_neverRefuses⟩
  have hall : ∀ q ∈ [countedPacket 1] ++ countedPacket 2 :: [countedPacket 3, countedPacket 4],
      ∃ n, q = countedPacket n := by
    intro q hq
    simp only [List.cons_append, List.nil_append, List.mem_cons, List.not_mem_nil, or_false] at hq
    rcases hq with rfl | rfl | rfl | rfl <;> exact ⟨_, rfl⟩
  have hs : (listener 2 6).h.rxFn = .rxAA := listener_rxFn (by decide)
  obtain ⟨s', rs, hrun, hdel, -⟩ := lost_byte hs (fun _ => bufferedOp 2 6)
    [countedPacket 1] [countedPacket 3, countedPacket 4] (countedPacket 2)
    (fun q hq => by obtain ⟨n, rfl⟩ := hall q hq; exact htakes n)
    (by decide) (k := 4) (le_refl 4) (by decide)
  exact ⟨s', rs, hrun, hdel⟩

end Ulisse
