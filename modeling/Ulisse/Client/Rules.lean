import Ulisse.Client.Invariant

/-!
# Client.Rules — one rule for each of the client's calls

Under `ClientAt` every call of the client is defined, and what it does is read off from the phase of
the receiver and the length of the transmit queue: which packet `_readPacket` returns with
(`nextPacket`), what `_sendPacket` queues, how much `_flushBuffer` writes.
-/

namespace Ulisse

open BlockMem Run Framing

/-- The packet that the answers complete from the phase `ph` on, and the answers behind it. -/
def nextPacket (heap : Fin 4 → ℕ) : ClientPhase → List ReadAnswer →
    Option (Completed × List ReadAnswer)
  | _, [] => none
  | ph, a :: answers =>
    match a.fed with
    | none => nextPacket heap ph answers
    | some c =>
      match ((rxScheme (clientTable heap)).step true ph c).2.done? with
      | some d => some (d, answers)
      | none => nextPacket heap ((rxScheme (clientTable heap)).step true ph c).1 answers

/-- The completed frame is one of an installed operation, and as long as its size says. -/
structure Installed (heap : Fin 4 → ℕ) (d : Completed) : Prop where
  look : lookup (clientTable heap) d.2.tag = some d.1
  length : 2 + d.2.body.length = d.1.size.toNat

/-- The client `cl'` is `cl` with the packet `d` copied to its destination. -/
structure Receives (cl cl' : UlisseClient) (d : Completed) : Prop where
  mem : ∀ o, o ≠ .packetBuffer → cl'.mem.cells o = copied cl.mem (some d) o
  globalSeq : cl'.globalSeq = cl.globalSeq

/-! ## Receiving -/

section Read

variable {heap : Fin 4 → ℕ} {cl cl' : UlisseClient} {ph : ClientPhase}
  {q : RingQueue UInt8 packetSizeMax} {answers rest : List ReadAnswer} {d : Completed}

/-- `_readPacket` reads on as long as no packet is complete. -/
theorem readPacket_blocked (hcl : ClientAt heap cl ph q) (h : nextPacket heap ph answers = none) :
    Client.readPacket cl answers = .error .blocked := by
  induction answers generalizing cl ph with
  | nil => rfl
  | cons a answers ih =>
    cases ha : a.fed with
    | none =>
      simp only [nextPacket, ha] at h
      simp only [Client.readPacket, ha]
      exact ih hcl h
    | some c =>
      obtain ⟨s', r, he, hcl', hans, -⟩ := rxByte_client hcl c
      simp only [nextPacket, ha] at h
      cases hd : ((rxScheme (clientTable heap)).step true ph c).2.done? with
      | some d =>
        simp only [hd] at h
        cases h
      | none =>
        simp only [hd] at h
        have hstatus := hans.status_of_quiet hd
        simp only [Client.readPacket, ha, he, if_neg hstatus, ih hcl' h]
        rfl

/-- **`_readPacket`** returns with the packet that the answers complete, copied. -/
theorem readPacket_ok (hcl : ClientAt heap cl ph q)
    (h : nextPacket heap ph answers = some (d, rest)) :
    ∃ cl' rs, Client.readPacket cl answers = .ok (cl', rs, rest) ∧ ClientAt heap cl' .hunt q ∧
      deliveries rs = [⟨d.1, rebuilt d.1 d.2⟩] ∧ Installed heap d ∧ Receives cl cl' d := by
  induction answers generalizing cl ph with
  | nil => cases h
  | cons a answers ih =>
    cases ha : a.fed with
    | none =>
      simp only [nextPacket, ha] at h
      simp only [Client.readPacket, ha]
      exact ih hcl h
    | some c =>
      obtain ⟨s', r, he, hcl', hans, hmem⟩ := rxByte_client hcl c
      simp only [nextPacket, ha] at h
      rcases (rxScheme (clientTable heap)).step_cases true ph c with
        ⟨t, op, x, got, rfl, -, hstep⟩ | ⟨hd, -⟩
      · rw [hstep] at h hcl' hans hmem
        simp only [Event.done?, Option.some.injEq, Prod.mk.injEq] at h
        obtain ⟨rfl, rfl⟩ := h
        obtain ⟨hlook, hacc⟩ := hcl.rx.wf
        have hsum := ((clientTable_fixed heap t op hlook).accept_iff.mp hacc).2
        have hstatus : r.status = .syncChecksum := hans.syncChecksum_iff.mpr ⟨_, _, rfl⟩
        refine ⟨cl.setRx s', [r], ?_, hcl', ?_, ⟨hlook, hsum⟩, hmem, rfl⟩
        · simp only [Client.readPacket, ha, he, if_pos hstatus]
        · rw [hans.deliver rfl hsum.ge, PacketOperations.deliver,
            if_pos (clientTable_receives hlook)]
      · rw [hd] at hmem
        simp only [hd] at h
        have hstatus := hans.status_of_quiet hd
        obtain ⟨cl'', rs, hread, hcl'', hdel, hinst, hrec⟩ := ih hcl' h
        refine ⟨cl'', r :: rs, ?_, hcl'', ?_, hinst, ⟨fun o ho => ?_, hrec.globalSeq⟩⟩
        · simp only [Client.readPacket, ha, he, if_neg hstatus, hread]
          rfl
        · rw [← List.singleton_append, deliveries_append, hans.quiet_deliveries hd, hdel]
          rfl
        · rw [hrec.mem o ho]
          simp only [copied]
          rw [show (cl.setRx s').mem.cells o = cl.mem.cells o from hmem o ho]

end Read

/-! ## Set-up -/

/-- What `PacketHandler_initialize` and an empty table leave: hunting, an empty ring, no operation
in any slot. -/
structure FreshHandler (h : PacketHandler Obj.size) : Prop where
  rxFn : h.rxFn = .rxAA
  txStart : h.txStart = 0
  txEnd : h.txEnd = 0
  txSize : h.txSize = 0
  operations : ∀ t, h.operations t = none

/-- The clients that `UlisseClient_init` returns from a block whose handler is initialized. -/
def Started (heap : Fin 4 → ℕ) (cl : UlisseClient) : Prop :=
  ∃ opened attribs block, FreshHandler block.packetHandler ∧
    UlisseClient.init opened attribs block heap = .client cl

section Start

variable {heap : Fin 4 → ℕ} {cl block : UlisseClient} {opened attribs : ℤ}

/-- Into an empty table exactly the four operations are installed. -/
theorem setUp_operations (hb : FreshHandler block.packetHandler) (t : Fin packetTypeMax) :
    (block.setUp opened heap).packetHandler.operations t = clientTable heap t := by
  show (clientTable heap t).or (block.packetHandler.operations t) = clientTable heap t
  rw [hb.operations t, Option.or_none]

theorem setUp_at (heap : Fin 4 → ℕ) (opened : ℤ) (hb : FreshHandler block.packetHandler) :
    ∃ q, ClientAt heap (block.setUp opened heap) .hunt q ∧ q.toList = [] := by
  have hring : RingAt (block.setUp opened heap).packetHandler
      (RingQueue.empty block.packetHandler.txBuffer (by decide)) :=
    ⟨rfl, hb.txStart, hb.txEnd, hb.txSize⟩
  have htable : (block.setUp opened heap).packetHandler.operations = clientTable heap := by
    funext t
    exact setUp_operations hb t
  exact ⟨_, ⟨⟨htable, trivial, hb.rxFn⟩, trivial, fun h => h.elim, hring, rfl⟩,
    RingQueue.toList_empty _ _⟩

theorem init_client_setUp (h : UlisseClient.init opened attribs block heap = .client cl) :
    cl = block.setUp opened heap := by
  have hserial : 0 < opened ∧ 0 ≤ attribs := by
    unfold UlisseClient.init at h
    split_ifs at h
    omega
  exact ((init_client_iff hserial.1 hserial.2).mp h).2

theorem Started.at (h : Started heap cl) : ∃ q, ClientAt heap cl .hunt q := by
  obtain ⟨opened, attribs, block, hb, hi⟩ := h
  rw [init_client_setUp hi]
  obtain ⟨q, hq, -⟩ := setUp_at heap opened hb
  exact ⟨q, hq⟩

end Start

/-- A client that was set up in an initialized block of zeros. -/
def startedClient : UlisseClient :=
  { zeroBlock with packetHandler := zeroHandler.initialized }.setUp 3 fun i => i.val

theorem startedClient_started : Started (fun i => i.val) startedClient := by
  refine ⟨3, 0, { zeroBlock with packetHandler := zeroHandler.initialized },
    ⟨rfl, rfl, rfl, rfl, fun _ => rfl⟩, ?_⟩
  exact (init_client_iff (by decide) (by decide)).mpr ⟨fun _ _ => rfl, rfl⟩

/-- The frame of a joint status. -/
def jointStatusFrame : List UInt8 := [0xAA, 0x55, 4, 28] ++ List.replicate 26 0 ++ [0xFF]

/-! ## Sending -/

section Send

variable {heap : Fin 4 → ℕ} {cl cl' : UlisseClient} {ph : ClientPhase}
  {q q' : RingQueue UInt8 packetSizeMax}

/-- The transmit end does not disturb the receiver. -/
theorem ClientAt.tx (hcl : ClientAt heap cl ph q)
    (hch : TxChange cl.packetHandler cl'.packetHandler) (hring : RingAt cl'.packetHandler q')
    (hmem : cl'.mem = cl.mem) (hsizes : cl'.packetSizes = cl.packetSizes) :
    ClientAt heap cl' ph q' := by
  obtain ⟨_, _, _, _, hh⟩ := hch
  have hrx : RxAt (clientTable heap) cl'.rx ph := by
    have hf := hcl.rx.fields
    have htable : cl'.packetHandler.operations = clientTable heap := by
      rw [hh]
      exact hcl.rx.table
    refine ⟨htable, hcl.rx.wf, ?_⟩
    have hbuffer : ∀ {op p got}, BufferAt cl.rx op p got → BufferAt cl'.rx op p got := by
      rintro op p got ⟨h1, h2, h3, h4⟩
      refine ⟨?_, ?_, ?_, by rw [UlisseClient.rx, hmem]; exact h4⟩
      · exact (congrArg PacketHandler.rxCurrentPacket hh).trans h1
      · exact (congrArg PacketHandler.rxBuffer hh).trans h2
      · exact (congrArg PacketHandler.rxBufferEnd hh).trans h3
    have hfn := congrArg PacketHandler.rxFn hh
    have ho := congrArg PacketHandler.rxCurrentOp hh
    have hn := congrArg PacketHandler.rxBytesToRead hh
    cases ph with
    | hunt => exact hfn.trans hf
    | sync => exact hfn.trans hf
    | tag => exact hfn.trans hf
    | len t op => exact ⟨hfn.trans hf.1, ho.trans hf.2⟩
    | body t op x need got =>
      obtain ⟨h1, h2, h3, p, hb⟩ := hf
      exact ⟨hfn.trans h1, ho.trans h2, (congrArg UInt8.toNat hn).trans h3, p, hbuffer hb⟩
    | stop t op x got =>
      obtain ⟨h1, h2, p, hb⟩ := hf
      exact ⟨hfn.trans h1, ho.trans h2, p, hbuffer hb⟩
  have hpacket := congrArg PacketHandler.rxCurrentPacket hh
  refine ⟨hrx, ?_, fun h => hpacket.trans (hcl.held h), hring, hsizes.trans hcl.sizes⟩
  have hroom := hcl.room
  cases ph with
  | body t op x need got => exact fun p hp => hroom p (hpacket.symm.trans hp)
  | _ => trivial

/-- **`_sendPacket`** is defined, counts one up, and queues the packet if it succeeds. -/
theorem clientSend_ok (hcl : ClientAt heap cl ph q) (p : Packet) :
    ∃ status cl' p' q', Client.sendPacket cl p = some (status, cl', p') ∧
      ClientAt heap cl' ph q' ∧ cl'.mem = cl.mem ∧ cl'.globalSeq = cl.globalSeq + 1 ∧
      (status = .success → p'.type = p.type ∧ p'.seq = cl.globalSeq + 1) := by
  have hcount : ClientAt heap { cl with globalSeq := cl.globalSeq + 1 } ph q :=
    hcl.tx (TxChange.refl _) hcl.ring rfl rfl
  unfold Client.sendPacket
  simp only
  split_ifs with ht h0 hsize
  · exact ⟨_, _, _, q, rfl, hcount, rfl, rfl, fun h => by cases h⟩
  · exact ⟨_, _, _, q, rfl, hcount, rfl, rfl, fun h => by cases h⟩
  · rcases sendPacket_ring hcl.ring (p.setSeq (cl.globalSeq + 1)) with
      ⟨-, hs⟩ | ⟨-, h', q', hs, hq', -⟩
    · refine ⟨_, _, _, q, by rw [hs]; rfl, hcount, rfl, rfl, fun h => by cases h⟩
    · refine ⟨.success, { cl with globalSeq := cl.globalSeq + 1, packetHandler := h' }, _, q',
        by rw [hs]; rfl, hcl.tx (sendPacket_change hs) hq' rfl rfl, rfl, rfl,
        fun _ => ⟨Packet.setSeq_type _ _, Packet.setSeq_seq _ _⟩⟩
  · exact ⟨_, _, _, q, rfl, hcount, rfl, rfl, fun h => by cases h⟩

/-- The flush takes out everything that is queued. -/
theorem flushLoop_ring {h : PacketHandler Obj.size} (hq : RingAt h q) :
    ∃ h' q', Client.flushLoop q.size h = some (h', List.replicate q.size none) ∧ RingAt h' q' ∧
      q'.toList = [] ∧ TxChange h h' := by
  generalize hn : q.size = n
  induction n generalizing h q with
  | zero =>
    have h0 : h.txSize = 0 := by rw [hq.size, hn]; rfl
    refine ⟨h, q, by rw [Client.flushLoop, if_pos h0]; rfl, hq, ?_, TxChange.refl h⟩
    exact List.eq_nil_of_length_eq_zero ((RingQueue.length_toList q).trans hn)
  | succ n ih =>
    have hpos : 0 < q.size := by omega
    obtain ⟨h₁, hb, hq₁⟩ := txByte_ring hq hpos
    have hn₁ : (q.pop hpos).size = n := by
      show q.size - 1 = n
      omega
    obtain ⟨h', q', hf, hq', hnil, hch⟩ := ih hq₁ hn₁
    have hne : ¬ h.txSize = 0 := by
      rw [hq.size]
      omega
    refine ⟨h', q', ?_, hq', hnil, (txByte_change hb).trans hch⟩
    rw [Client.flushLoop, if_neg hne, hb, Option.bind_some, hf]
    rfl

/-- **`_flushBuffer`** writes as many bytes as are queued; none of the values is determined. -/
theorem flushBuffer_ok (hcl : ClientAt heap cl ph q) :
    ∃ cl' q', Client.flushBuffer cl = some (cl', List.replicate q.size none) ∧
      ClientAt heap cl' ph q' ∧ q'.toList = [] ∧ cl'.mem = cl.mem ∧
      cl'.globalSeq = cl.globalSeq := by
  obtain ⟨h', q', hf, hq', hnil, hch⟩ := flushLoop_ring hcl.ring
  have hsize : cl.packetHandler.txSize.toNat = q.size := by
    rw [hcl.ring.size]
    rfl
  refine ⟨{ cl with packetHandler := h' }, q', ?_, hcl.tx hch hq' rfl rfl, hnil, rfl, rfl⟩
  rw [Client.flushBuffer, hsize, hf]
  rfl

end Send

end Ulisse
