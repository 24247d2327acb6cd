import Ulisse.Handler.Tx

/-!
# Handler.TxQueue — runs of the transmit end

Over every sequence of sends and byte fetches from an initialized handler the ring is a bounded
queue: the bytes removed so far followed by the bytes still queued are the frames of the accepted
packets, in order (`txRun_conserves`).  What `txByte` *returns* for a byte that it removes is
another matter: the value is never determined (`txStep_returned`).
-/

namespace Ulisse

open Run

variable {β : Type} {len : β → ℕ}

/-! ## One call -/

section Step

variable {h : PacketHandler len} {q : RingQueue UInt8 packetSizeMax}

/-- **Conservation**, one call: what was queued and what is accepted is removed or queued. -/
theorem txStep_conserves (hq : RingAt h q) (call : TxCall) :
    ∃ h' r q', txStep h call = some (h', r) ∧ RingAt h' q' ∧
      q.toList ++ r.accepted?.toList.flatMap Packet.frame = r.removed?.toList ++ q'.toList := by
  cases call with
  | sendPacket p =>
    rcases sendPacket_ring hq p with ⟨-, he⟩ | ⟨-, h', q', he, hq', hl⟩
    · refine ⟨h, .sent p .txBufferFull, q, by rw [txStep, he]; rfl, hq, ?_⟩
      simp [TxReturn.accepted?, TxReturn.removed?]
    · refine ⟨h', .sent p .success, q', by rw [txStep, he]; rfl, hq', ?_⟩
      simp [TxReturn.accepted?, TxReturn.removed?, hl]
  | txByte =>
    rcases Nat.eq_zero_or_pos q.size with h0 | hpos
    · have he := txByte_empty hq h0
      have hh := txHead_empty hq h0
      refine ⟨h, .byte (some 0) none, q, by rw [txStep, he, hh]; rfl, hq, ?_⟩
      simp [TxReturn.accepted?, TxReturn.removed?]
    · obtain ⟨h', he, hq'⟩ := txByte_ring hq hpos
      have hh := txHead_ring hq hpos
      refine ⟨h', .byte none (some (q.cells (q.slot 0))), _, by rw [txStep, he, hh]; rfl, hq', ?_⟩
      simp [TxReturn.accepted?, TxReturn.removed?, RingQueue.toList_pop q hpos]

/-- The values returned for removed bytes, one call: as many as there are bytes, none of them
determined. -/
theorem txStep_returned (hq : RingAt h q) {call : TxCall} {h' : PacketHandler len} {r : TxReturn}
    (he : txStep h call = some (h', r)) :
    r.returned?.toList = List.replicate r.removed?.toList.length none ∧
      (r.removed?.toList = [] ↔ (call = .txByte → h.txSize = 0)) := by
  cases call with
  | sendPacket p =>
    rw [txStep, Option.map_eq_some_iff] at he
    obtain ⟨r', -, he⟩ := he
    simp only [Prod.mk.injEq] at he
    obtain ⟨-, rfl⟩ := he
    simp [TxReturn.returned?, TxReturn.removed?]
  | txByte =>
    rcases Nat.eq_zero_or_pos q.size with h0 | hpos
    · rw [txStep, txByte_empty hq h0, txHead_empty hq h0, Option.map_some] at he
      obtain ⟨-, rfl⟩ := result_unique rfl he
      have hsize : h.txSize = 0 := by rw [hq.size, h0]; rfl
      simp [TxReturn.returned?, TxReturn.removed?, hsize]
    · obtain ⟨h1, he1, -⟩ := txByte_ring hq hpos
      rw [txStep, he1, txHead_ring hq hpos, Option.map_some] at he
      obtain ⟨-, rfl⟩ := result_unique rfl he
      have hsize : h.txSize ≠ 0 := by
        rw [hq.size]
        omega
      simp [TxReturn.returned?, TxReturn.removed?, hsize]

end Step

/-! ## Runs -/

section Runs

variable {h h' : PacketHandler len} {q : RingQueue UInt8 packetSizeMax} {calls : List TxCall}
  {rs : List TxReturn}

@[simp] theorem accepted_cons (r : TxReturn) (rs : List TxReturn) :
    accepted (r :: rs) = r.accepted?.toList ++ accepted rs := by
  cases hr : r.accepted? <;> simp [accepted, hr]

@[simp] theorem removed_cons (r : TxReturn) (rs : List TxReturn) :
    removed (r :: rs) = r.removed?.toList ++ removed rs := by
  cases hr : r.removed? <;> simp [removed, hr]

@[simp] theorem returned_cons (r : TxReturn) (rs : List TxReturn) :
    returned (r :: rs) = r.returned?.toList ++ returned rs := by
  cases hr : r.returned? <;> simp [returned, hr]

/-- Every call sequence runs, and the ring stays a ring queue. -/
theorem txRun_ring (hq : RingAt h q) (calls : List TxCall) :
    ∃ h' rs, run txStep h calls = some (h', rs) ∧ ∃ q', RingAt h' q' := by
  refine run_total (fun h call hI => ?_) ⟨q, hq⟩ calls
  obtain ⟨q, hq⟩ := hI
  obtain ⟨h', r, q', he, hq', -⟩ := txStep_conserves hq call
  exact ⟨h', r, he, q', hq'⟩

/-- The first call of a run, with what it conserves. -/
theorem txRun_cons {call : TxCall} (hq : RingAt h q)
    (he : run txStep h (call :: calls) = some (h', rs)) :
    ∃ h1 r rs' q1, txStep h call = some (h1, r) ∧ RingAt h1 q1 ∧
      run txStep h1 calls = some (h', rs') ∧ rs = r :: rs' ∧
      q.toList ++ r.accepted?.toList.flatMap Packet.frame = r.removed?.toList ++ q1.toList := by
  obtain ⟨h1, r, rs', he1, he2, rfl⟩ := run_cons_some.mp he
  obtain ⟨h1', r', q1, hs, hq1, hc⟩ := txStep_conserves hq call
  obtain ⟨rfl, rfl⟩ := result_unique he1 hs
  exact ⟨h1, r, rs', q1, he1, hq1, he2, rfl, hc⟩

/-- **Conservation**, runs: removed and queued bytes are what was queued and what was accepted. -/
theorem txRun_conserves (hq : RingAt h q) (he : run txStep h calls = some (h', rs)) :
    h.txQueue ++ (accepted rs).flatMap Packet.frame = removed rs ++ h'.txQueue := by
  induction calls generalizing h q rs with
  | nil =>
    obtain ⟨rfl, rfl⟩ := run_nil_some he
    simp [accepted, removed]
  | cons call calls ih =>
    obtain ⟨h1, r, rs, q1, -, hq1, he2, rfl, hc⟩ := txRun_cons hq he
    have hrest := ih hq1 he2
    rw [hq1.queue] at hrest
    rw [accepted_cons, removed_cons, List.flatMap_append, ← List.append_assoc, hq.queue, hc,
      List.append_assoc, hrest, List.append_assoc]

/-- The returned values of a run: one for each removed byte, none of them determined. -/
theorem txRun_returned (hq : RingAt h q) (he : run txStep h calls = some (h', rs)) :
    returned rs = List.replicate (removed rs).length none := by
  induction calls generalizing h q rs with
  | nil =>
    obtain ⟨rfl, rfl⟩ := run_nil_some he
    rfl
  | cons call calls ih =>
    obtain ⟨h1, r, rs, q1, he1, hq1, he2, rfl, -⟩ := txRun_cons hq he
    obtain ⟨hret, -⟩ := txStep_returned hq he1
    rw [returned_cons, removed_cons, hret, ih hq1 he2, List.length_append, List.replicate_add]

/-- Every `txByte` of the run finds the ring empty. -/
def NeverDequeues (h : PacketHandler len) (calls : List TxCall) : Prop :=
  ∀ pre post, calls = pre ++ .txByte :: post →
    ∀ h1 rs1, run txStep h pre = some (h1, rs1) → h1.txSize = 0

theorem neverDequeues_cons {call : TxCall} {h1 : PacketHandler len} {r : TxReturn}
    (he : txStep h call = some (h1, r)) :
    NeverDequeues h (call :: calls) ↔
      (call = .txByte → h.txSize = 0) ∧ NeverDequeues h1 calls := by
  constructor
  · intro hn
    refine ⟨fun hcall => hn [] calls (by rw [hcall]; rfl) h [] rfl, ?_⟩
    intro pre post hc h2 rs2 he2
    refine hn (call :: pre) post (by rw [hc]; rfl) h2 (r :: rs2) ?_
    rw [run_cons_of he, he2]
    rfl
  · rintro ⟨hcall, hrest⟩ pre post hc h2 rs2 he2
    cases pre with
    | nil =>
      simp only [List.nil_append, List.cons.injEq] at hc
      exact (run_nil_some he2).1 ▸ hcall hc.1
    | cons c pre =>
      simp only [List.cons_append, List.cons.injEq] at hc
      obtain ⟨rfl, hc⟩ := hc
      obtain ⟨h3, r3, rs3, he3, he4, -⟩ := run_cons_some.mp he2
      obtain ⟨rfl, -⟩ := result_unique he he3
      exact hrest pre post hc h2 rs3 he4

theorem removed_eq_nil_iff (hq : RingAt h q) (he : run txStep h calls = some (h', rs)) :
    removed rs = [] ↔ NeverDequeues h calls := by
  induction calls generalizing h q rs with
  | nil =>
    obtain ⟨rfl, rfl⟩ := run_nil_some he
    refine ⟨fun _ pre post hc => ?_, fun _ => rfl⟩
    simp at hc
  | cons call calls ih =>
    obtain ⟨h1, r, rs, q1, he1, hq1, he2, rfl, -⟩ := txRun_cons hq he
    obtain ⟨-, hnil⟩ := txStep_returned hq he1
    rw [removed_cons, List.append_eq_nil_iff, hnil, ih hq1 he2, neverDequeues_cons he1]

end Runs

/-! ## The ring as a bounded queue -/

/-- What the counters satisfy in every state. -/
structure TxInv (h : PacketHandler len) : Prop where
  start : 0 ≤ h.txStart ∧ h.txStart < packetSizeMax
  tail : 0 ≤ h.txEnd ∧ h.txEnd < packetSizeMax
  size : 0 ≤ h.txSize ∧ h.txSize ≤ packetSizeMax
  circle : h.txEnd = (h.txStart + h.txSize) % packetSizeMax
  length : (h.txQueue.length : ℤ) = h.txSize

theorem RingAt.inv {h : PacketHandler len} {q : RingQueue UInt8 packetSizeMax} (hq : RingAt h q) :
    TxInv h := by
  have hs := q.start_lt
  have hz := q.size_le
  have ht : (q.start + q.size) % packetSizeMax < packetSizeMax := Nat.mod_lt _ (by decide)
  refine ⟨?_, ?_, ?_, ?_, ?_⟩
  · rw [hq.start]
    omega
  · rw [hq.tail]
    omega
  · rw [hq.size]
    omega
  · rw [hq.tail, hq.start, hq.size]
    push_cast
    rfl
  · rw [hq.queue, RingQueue.length_toList, hq.size]

/-- **The transmit ring is a bounded byte queue and a send is all or nothing**, in every state that
calls reach from an initialized handler. -/
theorem txRing_refines_queue (h : PacketHandler len) (calls : List TxCall) :
    ∃ h' rs, run txStep h.initialized calls = some (h', rs) ∧ TxInv h' ∧
      (∀ p : Packet, if (packetSizeMax : ℤ) - h'.txSize < p.size.toNat + 3
        then h'.sendPacket p = some (.txBufferFull, h')
        else ∃ h'', h'.sendPacket p = some (.success, h'') ∧
          h''.txQueue = h'.txQueue ++ ([0xAA, 0x55] ++ p.content ++ [0xFF])) ∧
      (∀ c cs, h'.txQueue = c :: cs → ∃ h'' v, h'.txByte = some (h'', v) ∧ h''.txQueue = cs) ∧
      (h'.txQueue = [] → ∃ v, h'.txByte = some (h', v)) := by
  obtain ⟨h', rs, he, q, hq⟩ := txRun_ring (initialized_ring h) calls
  refine ⟨h', rs, he, hq.inv, fun p => ?_, fun c cs hc => ?_, fun hnil => ?_⟩
  · have hsize := hq.size
    rcases sendPacket_ring hq p with ⟨hfull, hs⟩ | ⟨hroom, h'', q', hs, hq', hl⟩
    · rw [if_pos (by omega)]
      exact hs
    · rw [if_neg (by omega)]
      refine ⟨h'', hs, ?_⟩
      rw [hq'.queue, hq.queue, hl]
      rfl
  · rw [hq.queue] at hc
    have hpos : 0 < q.size := by
      rw [← RingQueue.length_toList q, hc]
      simp
    obtain ⟨h'', hs, hq'⟩ := txByte_ring hq hpos
    refine ⟨h'', none, hs, ?_⟩
    rw [RingQueue.toList_pop q hpos, List.cons.injEq] at hc
    rw [hq'.queue, hc.2]
  · rw [hq.queue] at hnil
    have h0 : q.size = 0 := by rw [← RingQueue.length_toList q, hnil]; rfl
    exact ⟨some 0, txByte_empty hq h0⟩

/-! ## The values that `txByte` returns -/

/-- The values returned for removed bytes, followed by the bytes still queued, are the frames of the
accepted packets. -/
def FifoOutput (h : PacketHandler len) (rs : List TxReturn) : Prop :=
  returned rs ++ h.txQueue.map some = ((accepted rs).flatMap Packet.frame).map some

/-- **The output end is a FIFO only as long as nothing is taken out**: the bytes leave the ring in
the right order, but the value returned for each of them is not determined. -/
theorem fifoOutput_iff (h : PacketHandler len) (calls : List TxCall) :
    ∃ h' rs, run txStep h.initialized calls = some (h', rs) ∧
      removed rs ++ h'.txQueue = (accepted rs).flatMap Packet.frame ∧
      (FifoOutput h' rs ↔ NeverDequeues h.initialized calls) := by
  have hq := initialized_ring h
  obtain ⟨h', rs, he, -⟩ := txRun_ring hq calls
  have hcons := txRun_conserves hq he
  rw [hq.queue, RingQueue.toList_empty, List.nil_append] at hcons
  refine ⟨h', rs, he, hcons.symm, ?_⟩
  rw [← removed_eq_nil_iff hq he, FifoOutput, txRun_returned hq he, hcons, List.map_append,
    List.append_cancel_right_eq]
  cases hr : removed rs <;> simp [List.replicate_succ]

/-- A bare header of type `0`. -/
def bareHeader : Packet := ⟨[0, 4, 0, 0], by decide, by decide⟩

/-- Sending a bare header and fetching one byte: the sync byte leaves the ring, and what is returned
is not it. -/
theorem fifoOutput_counterexample :
    ∃ (h' : PacketHandler fun _ : Unit => 0) (rs : List TxReturn),
      run txStep zeroHandler.initialized [.sendPacket bareHeader, .txByte] = some (h', rs) ∧
      removed rs = [0xAA] ∧ returned rs = [none] ∧ ¬ FifoOutput h' rs := by
  refine ⟨_, _, rfl, rfl, rfl, fun hf => ?_⟩
  have hhead := congrArg List.head? hf
  exact absurd hhead (by decide)

end Ulisse
