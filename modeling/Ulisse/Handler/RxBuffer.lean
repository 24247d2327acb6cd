import Ulisse.Handler.RxRuns

/-!
# Handler.RxBuffer — the cursor and the countdown of the receive buffer

Over a fixed table the receiver's stores stay inside the buffer that was asked for, on every stream:
cursor and countdown add up to the operation's size (`Receiving`), and what has arrived since
`SyncSize` stands behind the rebuilt header.  After `SyncSize` it is deaf for as many bytes
as the size announced, and for no more (`Deaf`).
-/

namespace Ulisse

open BlockMem Run Framing

variable {β : Type} {len : β → ℕ}

/-- The receiver has read the payload bytes `got` into the buffer at `p`, for the operation `op`:
`bs` is the stream so far and `rs` are the answers to it. -/
structure Receiving (s : RxState len) (bs : List UInt8) (rs : List (RxReturn len))
    (op : PacketOperations len) (p : Ptr β) (got : List UInt8) : Prop where
  currentOp : s.h.rxCurrentOp = some op
  buffer : s.h.rxBuffer = some p
  bufferEnd : s.h.rxBufferEnd = some (p.add (2 + got.length))
  waits : 1 ≤ s.h.rxBytesToRead.toNat
  sum : 2 + got.length + s.h.rxBytesToRead.toNat = op.size.toNat
  room : Room len p op.size.toNat
  bytes : (view s.mem p).take (2 + got.length) = op.type :: op.size :: got
  since : ∃ pre rs₀ r rs₁, bs = pre ++ got ∧ rs = rs₀ ++ r :: rs₁ ∧ rs₀.length + 1 = pre.length ∧
    r.status = .syncSize ∧ ∀ q ∈ rs₁, q.status = .syncPayload

/-- The byte `c` is stored at offset `k` of the buffer at `p`, and nowhere else, and the countdown
goes down by one. -/
structure StoresAt [DecidableEq β] (s s' : RxState len) (p : Ptr β) (k : ℕ) (c : UInt8) : Prop where
  mem : s'.mem = write s.mem (p.add k) c
  count : s'.h.rxBytesToRead.toNat + 1 = s.h.rxBytesToRead.toNat

/-- The receiver takes in `n` payload bytes and a checksum byte, whatever they are, before it hunts
again. -/
def Deaf [DecidableEq β] (s : RxState len) (n : ℕ) : Prop :=
  ∀ ys, ∃ s' rs, run rxByte s ys = some (s', rs) ∧
    (ys.length < n → s'.h.rxFn = .rxPayload) ∧
    (ys.length = n → s'.h.rxFn = .rxChecksum) ∧
    (ys.length = n + 1 → s'.h.rxFn = .rxAA)

section Phases

variable {operations : Fin packetTypeMax → Option (PacketOperations len)} {s : RxState len}
  {ph : Phase UInt8 (PacketOperations len)} {bs : List UInt8} {rs : List (RxReturn len)}
  {es : List (Event UInt8 (PacketOperations len))}

/-- **The invariant**: a body phase over a fixed table, seen from the handler. -/
theorem RxAt.receiving (hfix : FixedTable operations) {t x : UInt8} {op : PacketOperations len}
    {need : ℕ} {got : List UInt8} (hr : RxAt operations s (.body t op x need got))
    (hroom : RoomAt s (.body t op x need got))
    (htr : Trace (rxScheme operations) .hunt bs es (.body t op x need got))
    (hans : List.Forall₂ Answers rs es) : ∃ p, Receiving s bs rs op p got := by
  obtain ⟨-, ho, hcount, p, hb⟩ := hr.fields
  obtain ⟨hlook, hacc, hpos⟩ := hr.wf
  have hop := hfix t op hlook
  have hsum := (hop.accept_iff.mp hacc).2
  have hlt := op.size.toNat_lt
  have hneed : s.h.rxBytesToRead.toNat = need := by
    rw [hcount]
    exact Nat.mod_eq_of_lt (by omega)
  obtain ⟨pre, es₀, es₁, hbs, rfl, hpre, hbody⟩ := htr.since_len rfl
  obtain ⟨rs₀, r, rs₁, rfl, hl₀, hstatus, hrs₁⟩ := answers_since_len hans
  refine ⟨p, ho, hb.buffer, hb.bufferEnd, by omega, by omega, ?_, hb.bytes,
    pre, rs₀, r, rs₁, hbs, rfl, by omega, hstatus, ?_⟩
  · exact (hroom p hb.packet).mono (by omega)
  · intro q hq
    obtain ⟨e, he, hq⟩ := answers_status hrs₁ hq
    rw [hq, hbody e he]
    rfl

variable [DecidableEq β]

/-- **Deafness**: the body phase runs for as long as the announced size says. -/
theorem RxAt.deaf (hfix : FixedTable operations) {t x : UInt8} {op : PacketOperations len}
    {need : ℕ} {got : List UInt8} (hr : RxAt operations s (.body t op x need got))
    (hroom : RoomAt s (.body t op x need got)) : Deaf s need := by
  intro ys
  obtain ⟨s', rs, es, ph', hrun, htr, hr', -, -⟩ := rxRun_total hfix hr hroom ys
  obtain ⟨h1, h2, h3⟩ := htr.body_run hr.wf.2.2
  have hf := hr'.fields
  refine ⟨s', rs, hrun, fun hlt => ?_, fun heq => ?_, fun heq => ?_⟩
  · rw [h1 hlt] at hf
    exact hf.1
  · rw [h2 heq] at hf
    exact hf.1
  · rw [h3 heq] at hf
    exact hf

/-- Every further byte has a place in the buffer. -/
theorem RxAt.stores (hfix : FixedTable operations) {t x : UInt8} {op : PacketOperations len}
    {need : ℕ} {got : List UInt8} (hr : RxAt operations s (.body t op x need got))
    (hroom : RoomAt s (.body t op x need got)) {p : Ptr β} (hrec : Receiving s bs rs op p got)
    (c : UInt8) :
    2 + got.length < op.size.toNat ∧
      ∃ s' r, rxByte s c = some (s', r) ∧ StoresAt s s' p (2 + got.length) c := by
  have hwaits := hrec.waits
  have hsum := hrec.sum
  obtain ⟨s', r, he⟩ := rxByte_defined hr hroom (hfix.sizesFit hr.wf) c
  have hfn : s.h.rxFn = .rxPayload := hr.rxFn_eq
  have hpay := he
  simp only [rxByte, hfn] at hpay
  obtain ⟨q, hb, -, rfl, -⟩ := rxPayload_stored hr hpay
  obtain rfl : q = p := Option.some_inj.mp (hb.buffer.symm.trans hrec.buffer)
  refine ⟨by omega, _, r, he, rfl, ?_⟩
  show (s.h.rxBytesToRead - 1).toNat + 1 = s.h.rxBytesToRead.toNat
  have hlt := s.h.rxBytesToRead.toNat_lt
  rw [UInt8.toNat_sub, UInt8.toNat_one]
  omega

/-- **The start of a frame**: `SyncSize` answers the size byte of an operation that gave a buffer of
its size, where the header is rebuilt. -/
theorem RxAt.started (hfix : FixedTable operations) (hr : RxAt operations s ph)
    (hroom : RoomAt s ph) {c : UInt8} {s' : RxState len} {r : RxReturn len}
    (he : rxByte s c = some (s', r)) (hstatus : r.status = .syncSize) :
    ∃ op p, s.h.rxCurrentOp = some op ∧ (op.initializeBuffer s.mem).1 = some p ∧
      Room len p op.size.toNat ∧ 2 < op.size.toNat ∧
      s'.mem = write (write (op.initializeBuffer s.mem).2 p op.type) (p.add 1) op.size ∧
      Deaf s' (op.size.toNat - 2) := by
  obtain ⟨g, -, hr', ha⟩ := rxByte_sim hr he
  have hfit := hfix.sizesFit hr.wf
  have hroom' := rxByte_room hr hroom hfit he hr'
  obtain ⟨t, op, n, rfl, hacc, hnext⟩ := Scheme.step_len (ha.syncSize_iff.mp hstatus)
  rw [hnext] at hr' hroom'
  have hop := hfix t op hr.wf
  obtain ⟨hc, hn⟩ := hop.accept_iff.mp hacc
  obtain ⟨hfn, ho⟩ := hr.fields
  simp only [rxByte, hfn] at he
  have hok : ¬ (op.size ≠ packetSizeAny ∧ op.size ≠ c) := fun hbad => hbad.2 hc.symm
  rcases rxSize_cases ho he with ⟨hbad, -⟩ | ⟨-, ⟨-, -, rfl⟩ | ⟨p, -, -, hp, -⟩⟩
  · exact absurd hbad hok
  · cases hstatus
  · have hdeaf := hr'.deaf hfix hroom'
    obtain ⟨-, rfl, -⟩ := rxSize_started ho hok hp he
    have h3 := hop.size_ge
    refine ⟨op, p, ho, hp, hop.fits s.mem p hp, by omega, rfl, ?_⟩
    rw [show op.size.toNat - 2 = n by omega]
    exact hdeaf

end Phases

variable [DecidableEq β]

/-- **Receive-buffer invariant**: on every stream after `PacketHandler_initialize`, and for every
further byte `c`. -/
theorem rxBuffer_invariant (h : PacketHandler len) (m : Mem UInt8 len)
    (hfix : FixedTable h.operations) (bs : List UInt8) :
    ∃ (s : RxState len) (rs : List (RxReturn len)),
      run rxByte ⟨h.initialized, m⟩ bs = some (s, rs) ∧
      (s.h.rxFn = .rxPayload → ∃ op p got, Receiving s bs rs op p got ∧
        ∀ c, 2 + got.length < op.size.toNat ∧
          ∃ s' r, rxByte s c = some (s', r) ∧ StoresAt s s' p (2 + got.length) c) ∧
      (s.h.rxFn = .rxSize ∨ s.h.rxFn = .rxPayload ∨ s.h.rxFn = .rxChecksum →
        ∃ t op, lookup h.operations t = some op ∧ s.h.rxCurrentOp = some op) ∧
      (∀ c s' r, rxByte s c = some (s', r) → r.status = .syncSize →
        ∃ op p, s.h.rxCurrentOp = some op ∧ (op.initializeBuffer s.mem).1 = some p ∧
          Room len p op.size.toNat ∧ 2 < op.size.toNat ∧
          s'.mem = write (write (op.initializeBuffer s.mem).2 p op.type) (p.add 1) op.size ∧
          Deaf s' (op.size.toNat - 2)) := by
  have hr₀ : RxAt h.operations ⟨h.initialized, m⟩ .hunt := ⟨rfl, trivial, rfl⟩
  obtain ⟨s, rs, es, ph, hrun, htr, hr, hroom, hans⟩ := rxRun_total hfix hr₀ trivial bs
  refine ⟨s, rs, hrun, ?_, hr.current, ?_⟩
  · intro hfn
    obtain ⟨t, op, x, need, got, rfl⟩ := hr.payload_phase hfn
    obtain ⟨p, hrec⟩ := hr.receiving hfix hroom htr hans
    exact ⟨op, p, got, hrec, hr.stores hfix hroom hrec⟩
  · intro c s' r he hstatus
    exact hr.started hfix hroom he hstatus

/-- The listener for type `2`, size `6`, in the middle of a frame. -/
theorem rxBuffer_invariant_listener :
    ∃ (s : RxState oneBlock) (rs : List (RxReturn oneBlock)),
      run rxByte ⟨(listener 2 6).h.initialized, (listener 2 6).mem⟩ [0xAA, 0x55, 2, 6, 9] =
        some (s, rs) ∧
      ∃ op p got, Receiving s [0xAA, 0x55, 2, 6, 9] rs op p got := by
  obtain ⟨s, rs, hrun, hpay, -⟩ := rxBuffer_invariant (listener 2 6).h (listener 2 6).mem
    (listener_fixed (by decide) (by decide) (by decide)) [0xAA, 0x55, 2, 6, 9]
  have hfn : (run rxByte ⟨(listener 2 6).h.initialized, (listener 2 6).mem⟩
      [0xAA, 0x55, 2, 6, 9]).map (fun q => q.1.h.rxFn) = some .rxPayload := by decide
  rw [hrun] at hfn
  obtain ⟨op, p, got, hrec, -⟩ := hpay (Option.some_inj.mp hfn)
  exact ⟨s, rs, hrun, op, p, got, hrec⟩

end Ulisse
