import Ulisse.Handler.RxRuns

/-!
# Handler.Resync — finding a frame behind noise

A frame follows bytes in which no sync pair begins.  The receiver looks back one byte only: of two
`0xAA` in a row `_rx55` drops the second one without trying it as the first of a pair.  So the frame
is taken in exactly when the noise ends in an even number of `0xAA` (`resync_iff`).
-/

namespace Ulisse

open BlockMem Run Framing

variable {β : Type} {len : β → ℕ}

/-- In `w ++ [0xAA, 0x55]` the pair `0xAA 0x55` occurs only at the very end. -/
def SyncOnlyAtEnd (w : List UInt8) : Prop :=
  ∀ u v, w ++ [0xAA, 0x55] = u ++ 0xAA :: 0x55 :: v → v = []

theorem SyncOnlyAtEnd.no_pair {w : List UInt8} (h : SyncOnlyAtEnd w) : ¬ [0xAA, 0x55] <:+: w := by
  rintro ⟨u, v, rfl⟩
  have hv := h u (v ++ [0xAA, 0x55]) (by simp)
  simp at hv

/-- Stray `0xAA` bytes are such noise. -/
theorem syncOnlyAtEnd_stray (n : ℕ) : SyncOnlyAtEnd (List.replicate n 0xAA) := by
  intro u v h
  have hlen := congrArg List.length h
  have h55 := congrArg (fun xs => xs[u.length + 1]?) h
  simp only [List.length_append, List.length_cons, List.length_nil, List.length_replicate] at hlen
  -- the only `0x55` on the left is the last byte
  by_cases hu : u.length < n
  · have hsplit : List.replicate n (0xAA : UInt8) ++ [0xAA, 0x55] =
        List.replicate (n + 1) 0xAA ++ [0x55] := by
      rw [List.replicate_succ', List.append_assoc]
      rfl
    simp only [hsplit] at h55
    rw [List.getElem?_append_left (by rw [List.length_replicate]; omega),
      List.getElem?_append_right (by omega), List.getElem?_replicate_of_lt (by omega)] at h55
    simp at h55
  · exact List.eq_nil_of_length_eq_zero (by omega)

variable [DecidableEq β]

/-- Feeding `w` and then the frame delivers the packet exactly once, and nothing else. -/
def DeliversOnce (s : RxState len) (w : List UInt8) (op : PacketOperations len)
    (payload : List UInt8) : Prop :=
  ∃ s' rs, run rxByte s (w ++ frameOf op payload) = some (s', rs) ∧
    deliveries rs = [⟨op, packetOf op payload⟩]

section Frames

variable {operations : Fin packetTypeMax → Option (PacketOperations len)} {s s' : RxState len}
  {op : PacketOperations len} {payload : List UInt8} {rs : List (RxReturn len)}

/-- **Too short**: a stream that is shorter than the frame does not deliver its packet. -/
theorem not_delivered_of_short {bs : List UInt8}
    (hfixed : ∀ t op, lookup operations t = some op → op.size ≠ packetSizeAny)
    (h4 : 4 ≤ op.size.toNat) (hlen : 2 + payload.length = op.size.toNat)
    (hr : RxAt operations s .hunt) (hshort : bs.length < (frameOf op payload).length)
    (hrun : run rxByte s bs = some (s', rs)) :
    (⟨op, packetOf op payload⟩ : Delivery len) ∉ deliveries rs := by
  intro hmem
  obtain ⟨es, ph, htr, -, hans⟩ := rxRun_trace hr hrun
  obtain ⟨segs, hacc, -⟩ := htr.sound
  rw [deliveries_of_answers hans (dones_size hacc hfixed), hacc.dones, List.mem_flatMap] at hmem
  obtain ⟨d, hd, hmem⟩ := hmem
  obtain ⟨g, hg, rfl⟩ := List.mem_map.mp hd
  have hdel : (⟨op, packetOf op payload⟩ : Delivery len) = ⟨g.op, rebuilt g.op g.frame⟩ := by
    unfold PacketOperations.deliver at hmem
    split_ifs at hmem
    · exact List.mem_singleton.mp hmem
    · cases hmem
  simp only [Delivery.mk.injEq] at hdel
  obtain ⟨rfl, -⟩ := hdel
  -- a completed frame of `op` is as long as the one expected, and stands in the shorter stream
  have hocc := hacc.occurs g hg
  have hwire := hocc.here.length_le
  have hn := ((accept_own (hfixed _ _ hocc.fits.look)).mp hocc.fits.accept).2
  rw [payloadLength_of_le (by omega)] at hn
  rw [Scheme.length_wire, List.length_drop] at hwire
  simp only [frameOf, packetOf, List.length_cons, List.length_append, List.length_nil] at hshort
  omega

end Frames

section Resync

variable {s : RxState len} {op : PacketOperations len} {payload w : List UInt8}

/-- **Resynchronisation**: a frame behind noise without a sync pair is delivered, and alone, exactly
if the noise ends in an even number of `0xAA` (and there is a function to deliver it to). -/
theorem resync_iff (hs : s.h.rxFn = .rxAA)
    (hfixed : ∀ t op, lookup s.h.operations t = some op → op.size ≠ packetSizeAny)
    (hl : lookup s.h.operations op.type = some op) (h4 : 4 ≤ op.size.toNat)
    (h251 : op.size.toNat ≤ 251) (hbuf : op.BufferFits) (hnn : op.NeverRefuses)
    (hlen : 2 + payload.length = op.size.toNat) (hw : SyncOnlyAtEnd w) :
    DeliversOnce s w op payload ↔ op.onReciveFn.isSome ∧ Even (trail 0xAA w) := by
  have hr := RxAt.hunting hs
  have hop : op.Fixed := ⟨by omega, by rw [packetSizeMax]; omega, hbuf⟩
  obtain ⟨s₁, rs₁, hrun₁, hdel₁, hr₁⟩ := rxRun_noise hr hw.no_pair
  by_cases hev : Even (trail 0xAA w)
  · -- the receiver hunts when the frame begins
    rw [if_pos hev] at hr₁
    obtain ⟨s₂, rs₂, hrun₂, -, hdel₂⟩ := rxRun_frame hop hnn hl hlen hr₁
    have hrun := run_append_of hrun₁ hrun₂
    have hdel : deliveries (rs₁ ++ rs₂) = op.deliver (packetOf op payload) := by
      rw [deliveries_append, hdel₁, hdel₂, List.nil_append]
    constructor
    · rintro ⟨s', rs, he, hd⟩
      obtain ⟨-, rfl⟩ := result_unique hrun he
      rw [hdel, PacketOperations.deliver] at hd
      split_ifs at hd with hon
      exact ⟨hon, hev⟩
    · rintro ⟨hon, -⟩
      refine ⟨s₂, _, hrun, ?_⟩
      rw [hdel, PacketOperations.deliver, if_pos hon]
  · -- it is one byte into a pair: the first `0xAA` of the frame sends it back to hunting
    rw [if_neg hev] at hr₁
    constructor
    · rintro ⟨s', rs, he, hd⟩
      exfalso
      obtain ⟨s₁', qs₁, qs₂, he₁, he₂, rfl⟩ := run_split he
      obtain ⟨rfl, rfl⟩ := result_unique hrun₁ he₁
      obtain ⟨s₂, r, qs, hstep, hrest, rfl⟩ := run_cons_some.mp he₂
      obtain ⟨g, -, hr₂, hans⟩ := rxByte_sim hr₁ hstep
      have hne : (0xAA : UInt8) ≠ (rxScheme s.h.operations).sync₁ := by
        show (0xAA : UInt8) ≠ 0x55
        decide
      have hback : (rxScheme s.h.operations).step g .sync 0xAA = (.hunt, .lost) := by
        simp only [Scheme.step, if_neg hne]
      rw [hback] at hr₂ hans
      refine not_delivered_of_short hfixed h4 hlen hr₂ (Nat.lt_succ_self _) hrest ?_
      have hq : deliveries qs = [⟨op, packetOf op payload⟩] := by
        rw [← hd, deliveries_append, hdel₁, ← List.singleton_append, deliveries_append,
          hans.quiet_deliveries rfl]
        rfl
      rw [hq]
      exact List.mem_singleton_self _
    · rintro ⟨-, h⟩
      exact absurd h hev

end Resync

/-- Behind two stray `0xAA` the listener takes the frame in. -/
theorem resync_iff_listener :
    DeliversOnce (listener 2 6) [0xAA, 0xAA] (bufferedOp 2 6) [1, 2, 3, 4] := by
  refine (resync_iff (listener_rxFn (by decide)) ?_ ((listener_lookup (by decide)).mpr ⟨rfl, rfl⟩)
    (by decide) (by decide) bufferedOp_fits
    bufferedOp_neverRefuses rfl (syncOnlyAtEnd_stray 2)).mpr ⟨rfl, ⟨1, rfl⟩⟩
  exact (listener_fixed (by decide) (by decide) (by decide)).size_ne

/-- Behind a single stray `0xAA` the frame is lost. -/
theorem resync_counterexample :
    FixedTable (listener 2 6).h.operations ∧
    lookup (listener 2 6).h.operations 2 = some (bufferedOp 2 6) ∧
    (bufferedOp 2 6).NeverRefuses ∧ SyncOnlyAtEnd [0xAA] ∧
    ¬ DeliversOnce (listener 2 6) [0xAA] (bufferedOp 2 6) [1, 2, 3, 4] := by
  refine ⟨listener_fixed (by decide) (by decide) (by decide),
    (listener_lookup (by decide)).mpr ⟨rfl, rfl⟩, bufferedOp_neverRefuses,
    syncOnlyAtEnd_stray 1, ?_⟩
  rintro ⟨s', rs, hrun, hdel⟩
  have hnone : (run rxByte (listener 2 6)
      ([0xAA] ++ frameOf (bufferedOp 2 6) [1, 2, 3, 4])).map
        (fun q => (deliveries q.2).length) = some 0 := by decide
  rw [hrun, Option.map_some, hdel] at hnone
  exact absurd hnone (by simp)

end Ulisse
