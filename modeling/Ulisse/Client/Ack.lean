import Ulisse.Client.Rules

/-!
# Client.Ack — what the success of a blocking send says

After every packet that it reads, of whatever type, `UlisseClient_sendPacket` looks at the stored
response.  If that response is there before the call, the first packet of another type makes the
call succeed: `sendPacket_ack_iff` says that nothing else goes wrong.
-/

namespace Ulisse

open BlockMem Run Framing

/-- The clients that a set-up client turns into by sends and received bytes. -/
inductive ClientReachable (heap : Fin 4 → ℕ) : UlisseClient → Prop where
  | start {cl : UlisseClient} (h : Started heap cl) : ClientReachable heap cl
  | send {cl : UlisseClient} (h : ClientReachable heap cl) (p : Packet) (timeout : ℤ)
    (answers : List ReadAnswer) {ret : SendReturn}
    (hs : cl.sendPacket p timeout answers = .ok ret) : ClientReachable heap ret.client
  | recv {cl : UlisseClient} (h : ClientReachable heap cl) (c : UInt8) {s : RxState Obj.size}
    {r : RxReturn Obj.size} (hb : rxByte cl.rx c = some (s, r)) : ClientReachable heap (cl.setRx s)

/-- The packet is a response to the packet of type `type` that was sent with the number `seq`. -/
def Acknowledges (d : Delivery Obj.size) (type : UInt8) (seq : UInt16) : Prop :=
  d.op.type = responsePacketId ∧ responsePType d.packet = type ∧ responsePSeq d.packet = seq

/-- `_sendPacket` of `p` succeeds. -/
def SendSucceeds (cl : UlisseClient) (p : Packet) : Prop :=
  ∃ cl' p', Client.sendPacket cl p = some (.success, cl', p')

/-- The call succeeds exactly for a fresh acknowledgement among the at most `timeout` packets
completed in it, and otherwise times out after `timeout` packets. -/
structure FreshAck (cl : UlisseClient) (p : Packet) (timeout : ℤ) (ret : SendReturn) : Prop where
  success : ret.status = .success ↔ SendSucceeds cl p ∧
    ∃ d ∈ deliveries ret.received, Acknowledges d p.type (cl.globalSeq + 1)
  bound : (deliveries ret.received).length ≤ timeout.toNat
  timeout : SendSucceeds cl p → ret.status ≠ .success →
    ret.status = .timeout ∧ (deliveries ret.received).length = timeout.toNat

/-- The client knows packets of the type of `p` and of its size, and the transmit ring has room for
the frame. -/
structure SendFits (cl : UlisseClient) (p : Packet) : Prop where
  type : p.type.toNat < packetTypeMax
  known : cl.packetSizes ⟨p.type.toNat, type⟩ ≠ 0
  size : p.size = cl.packetSizes ⟨p.type.toNat, type⟩
  room : cl.packetHandler.txSize + (p.size.toNat + 3) ≤ packetSizeMax

/-- The packet is one that can be sent, the stored response already matches it, and the first packet
that the bytes complete is not a response. -/
structure StaleAck (heap : Fin 4 → ℕ) (cl : UlisseClient) (p : Packet)
    (answers : List ReadAnswer) : Prop where
  fits : SendFits cl p
  stored : Client.ResponseMatches cl p.type (cl.globalSeq + 1)
  other : ∃ ph q d rest, ClientAt heap cl ph q ∧ nextPacket heap ph answers = some (d, rest) ∧
    d.1.type ≠ responsePacketId

section Await

variable {heap : Fin 4 → ℕ} {cl cl₁ cl' : UlisseClient} {ph : ClientPhase}
  {q : RingQueue UInt8 packetSizeMax} {answers rest : List ReadAnswer} {d : Completed}
  {type : UInt8} {seq : UInt16} {status : PacketStatus} {rs : List (RxReturn Obj.size)} {n : ℕ}

/-- The stored response is the last one received. -/
theorem Receives.response (hinst : Installed heap d) (hrec : Receives cl cl₁ d) :
    cl₁.mem.cells .response =
      if d.1.type = responsePacketId then rebuilt d.1 d.2 else cl.mem.cells .response := by
  obtain ⟨op, f⟩ := d
  obtain ⟨addr, dest, hd, hop⟩ := lookup_client hinst.look
  obtain ⟨-, -, -, -, hresp⟩ := destination_some hd
  have hargs : op.onReciveArgs = some ⟨.response, 0⟩ ↔ op.type = responsePacketId := by
    have hop' : op = Client.packetOp addr dest f.tag (UInt8.ofNat dest.size) := hop
    rw [hop']
    show some (⟨dest, 0⟩ : Ptr Obj) = some ⟨.response, 0⟩ ↔ f.tag = responsePacketId
    rw [← hresp]
    simp
  rw [hrec.mem _ (by decide), copied]
  by_cases ht : op.type = responsePacketId
  · rw [if_pos (hargs.mpr ht), if_pos ht]
  · rw [if_neg fun h => ht (hargs.mp h), if_neg ht]

/-- After a packet the stored response matches if the packet is a response that does, or if it is no
response and the stored one did before. -/
theorem Receives.matches_iff (hinst : Installed heap d) (hrec : Receives cl cl₁ d) :
    Client.ResponseMatches cl₁ type seq ↔
      Acknowledges ⟨d.1, rebuilt d.1 d.2⟩ type seq ∨
        (d.1.type ≠ responsePacketId ∧ Client.ResponseMatches cl type seq) := by
  unfold Client.ResponseMatches Acknowledges
  rw [hrec.response hinst]
  by_cases ht : d.1.type = responsePacketId
  · simp [ht]
  · simp [ht]

/-- One turn of the waiting loop. -/
theorem awaitResponse_succ (hread : Client.readPacket cl answers = .ok (cl₁, rs, rest)) :
    Client.awaitResponse type seq (n + 1) cl answers =
      if Client.ResponseMatches cl₁ type seq then .ok (.success, cl₁, rs, rest)
      else (Client.awaitResponse type seq n cl₁ rest).map fun x =>
        (x.1, x.2.1, rs ++ x.2.2.1, x.2.2.2) := by
  rw [Client.awaitResponse, hread]
  show (if _ then _ else _) = _
  split_ifs
  · rfl
  · cases Client.awaitResponse type seq n cl₁ rest <;> rfl

/-- **Waiting** ends after the first packet that makes the stored response match. -/
theorem awaitResponse_cases (hcl : ClientAt heap cl ph q)
    (h : Client.awaitResponse type seq (n + 1) cl answers = .ok (status, cl', rs, rest)) :
    ∃ d cl₁ rs₁ rest₁, nextPacket heap ph answers = some (d, rest₁) ∧
      ClientAt heap cl₁ .hunt q ∧ deliveries rs₁ = [⟨d.1, rebuilt d.1 d.2⟩] ∧ Installed heap d ∧
      Receives cl cl₁ d ∧
      ((Client.ResponseMatches cl₁ type seq ∧ status = .success ∧ cl' = cl₁ ∧ rs = rs₁) ∨
        (¬ Client.ResponseMatches cl₁ type seq ∧ ∃ rs₂, rs = rs₁ ++ rs₂ ∧
          Client.awaitResponse type seq n cl₁ rest₁ = .ok (status, cl', rs₂, rest))) := by
  cases hn : nextPacket heap ph answers with
  | none =>
    rw [Client.awaitResponse, readPacket_blocked hcl hn] at h
    cases h
  | some x =>
    obtain ⟨d, rest₁⟩ := x
    obtain ⟨cl₁, rs₁, hread, hcl₁, hdel, hinst, hrec⟩ := readPacket_ok hcl hn
    refine ⟨d, cl₁, rs₁, rest₁, rfl, hcl₁, hdel, hinst, hrec, ?_⟩
    rw [awaitResponse_succ hread] at h
    split_ifs at h with hm
    · simp only [Except.ok.injEq, Prod.mk.injEq] at h
      obtain ⟨rfl, rfl, rfl, -⟩ := h
      exact Or.inl ⟨hm, rfl, rfl, rfl⟩
    · cases hw : Client.awaitResponse type seq n cl₁ rest₁ with
      | error e => rw [hw] at h; cases h
      | ok y =>
        rw [hw] at h
        simp only [Except.map, Except.ok.injEq, Prod.mk.injEq] at h
        obtain ⟨rfl, rfl, rfl, rfl⟩ := h
        exact Or.inr ⟨hm, _, rfl, rfl⟩

/-- The type of the first packet is the client's, whatever is known of its phase. -/
theorem nextPacket_type {ph' : ClientPhase} {q' : RingQueue UInt8 packetSizeMax} {d' : Completed}
    {rest' : List ReadAnswer} (hcl : ClientAt heap cl ph q) (hcl' : ClientAt heap cl ph' q')
    (h : nextPacket heap ph answers = some (d, rest))
    (h' : nextPacket heap ph' answers = some (d', rest')) : d.1.type = d'.1.type := by
  obtain ⟨cl₁, rs, hread, -, hdel, -, -⟩ := readPacket_ok hcl h
  obtain ⟨cl₂, rs', hread', -, hdel', -, -⟩ := readPacket_ok hcl' h'
  rw [hread, Except.ok.injEq, Prod.mk.injEq, Prod.mk.injEq] at hread'
  obtain ⟨-, rfl, -⟩ := hread'
  have hsame := hdel.symm.trans hdel'
  rw [List.singleton_inj] at hsame
  exact congrArg (fun x : Delivery Obj.size => x.op.type) hsame

theorem awaitResponse_at (hcl : ClientAt heap cl ph q)
    (h : Client.awaitResponse type seq n cl answers = .ok (status, cl', rs, rest)) :
    ∃ ph', ClientAt heap cl' ph' q := by
  induction n generalizing cl ph answers rs with
  | zero =>
    simp only [Client.awaitResponse, Except.ok.injEq, Prod.mk.injEq] at h
    obtain ⟨-, rfl, -⟩ := h
    exact ⟨ph, hcl⟩
  | succ n ih =>
    obtain ⟨d, cl₁, rs₁, rest₁, -, hcl₁, -, -, -, ⟨-, -, rfl, -⟩ | ⟨-, rs₂, -, hw⟩⟩ :=
      awaitResponse_cases hcl h
    · exact ⟨.hunt, hcl₁⟩
    · exact ih hcl₁ hw

/-- Waiting takes at most `n` packets in, all of them without success, and moves nothing but the
receiver. -/
theorem awaitResponse_bounds (hcl : ClientAt heap cl ph q)
    (h : Client.awaitResponse type seq n cl answers = .ok (status, cl', rs, rest)) :
    cl'.globalSeq = cl.globalSeq ∧ (deliveries rs).length ≤ n ∧
      (status = .success → Client.ResponseMatches cl' type seq) ∧
      (status ≠ .success → (deliveries rs).length = n) := by
  induction n generalizing cl ph answers rs with
  | zero =>
    simp only [Client.awaitResponse, Except.ok.injEq, Prod.mk.injEq] at h
    obtain ⟨rfl, rfl, rfl, -⟩ := h
    refine ⟨rfl, Nat.le_refl 0, ?_, fun _ => rfl⟩
    intro hs
    cases hs
  | succ n ih =>
    obtain ⟨d, cl₁, rs₁, rest₁, -, hcl₁, hdel, -, hrec, ⟨hm, hst, rfl, rfl⟩ | ⟨-, rs₂, rfl, hw⟩⟩ :=
      awaitResponse_cases hcl h
    · refine ⟨hrec.globalSeq, ?_, fun _ => hm, fun hne => absurd hst hne⟩
      rw [hdel, List.length_singleton]
      omega
    · obtain ⟨h1, h2, h3, h4⟩ := ih hcl₁ hw
      rw [deliveries_append, hdel, List.length_append, List.length_singleton]
      refine ⟨h1.trans hrec.globalSeq, by omega, h3, fun hne => ?_⟩
      rw [h4 hne, Nat.add_comm]

/-- **Waiting for a fresh acknowledgement**: unless the stored response matches and the first packet
leaves it there. -/
theorem awaitResponse_fresh (hcl : ClientAt heap cl ph q)
    (hfirst : ∀ d rest, nextPacket heap ph answers = some (d, rest) →
      d.1.type ≠ responsePacketId → ¬ Client.ResponseMatches cl type seq)
    (h : Client.awaitResponse type seq n cl answers = .ok (status, cl', rs, rest)) :
    (status = .success ↔ ∃ d ∈ deliveries rs, Acknowledges d type seq) ∧
      (status ≠ .success → status = .timeout) := by
  induction n generalizing cl ph answers rs with
  | zero =>
    simp only [Client.awaitResponse, Except.ok.injEq, Prod.mk.injEq] at h
    obtain ⟨rfl, -, rfl, -⟩ := h
    simp
  | succ n ih =>
    obtain ⟨d, cl₁, rs₁, rest₁, hnext, hcl₁, hdel, hinst, hrec, hcase⟩ := awaitResponse_cases hcl h
    have hmatch := @Receives.matches_iff _ _ _ _ type seq hinst hrec
    rcases hcase with ⟨hm, rfl, -, rfl⟩ | ⟨hm, rs₂, rfl, hw⟩
    · refine ⟨⟨fun _ => ?_, fun _ => rfl⟩, fun h => absurd rfl h⟩
      rcases hmatch.mp hm with hack | ⟨hother, hold⟩
      · exact ⟨_, by rw [hdel]; exact .head _, hack⟩
      · exact absurd hold (hfirst d rest₁ hnext hother)
    · obtain ⟨h1, h2⟩ := ih hcl₁ (fun _ _ _ _ => hm) hw
      refine ⟨?_, h2⟩
      rw [h1, deliveries_append, hdel, List.singleton_append, List.exists_mem_cons_iff]
      constructor
      · exact Or.inr
      · rintro (hack | hrest)
        · exact absurd (hmatch.mpr (Or.inl hack)) hm
        · exact hrest

end Await

section Call

variable {heap : Fin 4 → ℕ} {cl : UlisseClient} {ph : ClientPhase}
  {q : RingQueue UInt8 packetSizeMax} {p : Packet} {timeout : ℤ} {answers : List ReadAnswer}
  {ret : SendReturn}

/-- **The call**: it ends after `_sendPacket`, or it flushes and waits. -/
theorem sendPacket_cases (hcl : ClientAt heap cl ph q)
    (h : cl.sendPacket p timeout answers = .ok ret) :
    ∃ status cl₁ p₁ q₁, Client.sendPacket cl p = some (status, cl₁, p₁) ∧
      ClientAt heap cl₁ ph q₁ ∧
      (((timeout = 0 ∨ status ≠ .success) ∧ ret = ⟨status, cl₁, p₁, [], [], answers⟩) ∨
        (timeout ≠ 0 ∧ status = .success ∧ ∃ cl₂ q₂, ClientAt heap cl₂ ph q₂ ∧ cl₂.mem = cl.mem ∧
          Client.awaitResponse p.type (cl.globalSeq + 1) timeout.toNat cl₂ answers =
            .ok (ret.status, ret.client, ret.received, ret.rest))) := by
  obtain ⟨status, cl₁, p₁, q₁, hs, hcl₁, hmem₁, -, hp₁⟩ := clientSend_ok hcl p
  refine ⟨status, cl₁, p₁, q₁, hs, hcl₁, ?_⟩
  simp only [UlisseClient.sendPacket, hs] at h
  split_ifs at h with h0 hstatus
  · exact Or.inl ⟨Or.inl h0, (Except.ok.inj h).symm⟩
  · exact Or.inl ⟨Or.inr hstatus, (Except.ok.inj h).symm⟩
  · rw [not_not] at hstatus
    obtain ⟨htype, hseq⟩ := hp₁ hstatus
    obtain ⟨cl₂, q₂, hf, hcl₂, -, hmem₂, -⟩ := flushBuffer_ok hcl₁
    refine Or.inr ⟨h0, hstatus, cl₂, q₂, hcl₂, hmem₂.trans hmem₁, ?_⟩
    simp only [hf, htype, hseq] at h
    cases hw : Client.awaitResponse p.type (cl.globalSeq + 1) timeout.toNat cl₂ answers with
    | error e => rw [hw] at h; cases h
    | ok x =>
      rw [hw] at h
      rw [← Except.ok.inj h]

/-- Every reachable client satisfies the invariant. -/
theorem ClientReachable.at (h : ClientReachable heap cl) : ∃ ph q, ClientAt heap cl ph q := by
  induction h with
  | start h =>
    obtain ⟨q, hq⟩ := h.at
    exact ⟨.hunt, q, hq⟩
  | send _ p timeout answers hs ih =>
    obtain ⟨ph, q, hcl⟩ := ih
    obtain ⟨status, cl₁, p₁, q₁, -, hcl₁, ⟨-, rfl⟩ | ⟨-, -, cl₂, q₂, hcl₂, -, hw⟩⟩ :=
      sendPacket_cases hcl hs
    · exact ⟨ph, q₁, hcl₁⟩
    · obtain ⟨ph', hcl'⟩ := awaitResponse_at hcl₂ hw
      exact ⟨ph', q₂, hcl'⟩
  | recv _ c hb ih =>
    obtain ⟨ph, q, hcl⟩ := ih
    obtain ⟨s', r', he, hcl', -⟩ := rxByte_client hcl c
    obtain ⟨rfl, -⟩ := result_unique hb he
    exact ⟨_, q, hcl'⟩

theorem ClientReachable.recvs {bs : List UInt8} {s : RxState Obj.size}
    {rs : List (RxReturn Obj.size)} (h : ClientReachable heap cl)
    (hrun : run rxByte cl.rx bs = some (s, rs)) : ClientReachable heap (cl.setRx s) := by
  refine run_invariant (I := fun s => ClientReachable heap (cl.setRx s)) ?_
    (show ClientReachable heap (cl.setRx cl.rx) from h) hrun
  intro s c s' r hs he
  exact hs.recv c he

/-- `_sendPacket` fails for no other reason. -/
theorem sendSucceeds_iff (hcl : ClientAt heap cl ph q) : SendSucceeds cl p ↔ SendFits cl p := by
  have hsize := hcl.ring.size
  have hcounted : (p.setSeq (cl.globalSeq + 1)).size = p.size := Packet.setSeq_size _ _
  constructor
  · rintro ⟨cl', p', hs⟩
    simp only [Client.sendPacket] at hs
    split_ifs at hs with ht h0 hbad
    · cases hs
    · cases hs
    · rcases sendPacket_ring hcl.ring (p.setSeq (cl.globalSeq + 1)) with
        ⟨-, hfull⟩ | ⟨hroom, -⟩
      · rw [hfull] at hs
        cases hs
      · rw [hcounted] at hroom
        refine ⟨ht, h0, not_not.mp hbad, ?_⟩
        omega
    · cases hs
  · rintro ⟨ht, h0, hexp, hroom⟩
    rcases sendPacket_ring hcl.ring (p.setSeq (cl.globalSeq + 1)) with
      ⟨hfull, -⟩ | ⟨-, h', q', hs, -⟩
    · rw [hcounted] at hfull
      omega
    · refine ⟨{ cl with globalSeq := cl.globalSeq + 1, packetHandler := h' },
        p.setSeq (cl.globalSeq + 1), ?_⟩
      simp only [Client.sendPacket, dif_pos ht, if_neg h0, if_neg (not_not.mpr hexp), hs]
      rfl

/-- **A blocking send** reports success exactly for a fresh acknowledgement, unless the stored
response already matches and a packet of another type comes in first. -/
theorem sendPacket_ack_iff (h : ClientReachable heap cl) (p : Packet) (ht : 0 < timeout)
    (he : cl.sendPacket p timeout answers = .ok ret) :
    FreshAck cl p timeout ret ↔ ¬ StaleAck heap cl p answers := by
  obtain ⟨ph, q, hcl⟩ := h.at
  obtain ⟨status, cl₁, p₁, q₁, hs, -, ⟨hend, rfl⟩ | ⟨-, rfl, cl₂, q₂, hcl₂, hmem, hw⟩⟩ :=
    sendPacket_cases hcl he
  · -- nothing was sent
    have hne : status ≠ .success := hend.resolve_left (by omega)
    have hno : ¬ SendSucceeds cl p := by
      rintro ⟨cl', p', hs'⟩
      exact hne (result_unique hs hs').1
    refine iff_of_true ⟨?_, Nat.zero_le _, fun h => absurd h hno⟩ fun hstale =>
      hno ((sendSucceeds_iff hcl).mpr hstale.fits)
    exact iff_of_false hne fun h => hno h.1
  · have hsends : SendSucceeds cl p := ⟨cl₁, p₁, hs⟩
    have hstored : Client.ResponseMatches cl₂ p.type (cl.globalSeq + 1) ↔
        Client.ResponseMatches cl p.type (cl.globalSeq + 1) := by
      rw [Client.ResponseMatches, hmem]
      rfl
    by_cases hbad : StaleAck heap cl p answers
    · -- the first packet leaves the stored response where it is
      refine iff_of_false ?_ fun h => h hbad
      rintro ⟨hsuccess, -, -⟩
      obtain ⟨n, hn⟩ : ∃ n, timeout.toNat = n + 1 := ⟨timeout.toNat - 1, by omega⟩
      rw [hn] at hw
      obtain ⟨d, cl₃, rs₁, rest₁, hnext, -, hdel, hinst, hrec, hcase⟩ := awaitResponse_cases hcl₂ hw
      obtain ⟨ph', q', d', rest', hcl', hnext', hother⟩ := hbad.other
      have htype : d.1.type ≠ responsePacketId := by
        rwa [nextPacket_type hcl hcl' hnext hnext']
      have hm := (hrec.matches_iff hinst).mpr (Or.inr ⟨htype, hstored.mpr hbad.stored⟩)
      rcases hcase with ⟨-, hst, -, hrs⟩ | ⟨hnm, -⟩
      · obtain ⟨-, d', hd', hack⟩ := hsuccess.mp hst
        rw [hrs, hdel, List.mem_singleton] at hd'
        rw [hd'] at hack
        exact htype hack.1
      · exact hnm hm
    · refine iff_of_true ?_ hbad
      have hfirst : ∀ d rest, nextPacket heap ph answers = some (d, rest) →
          d.1.type ≠ responsePacketId →
          ¬ Client.ResponseMatches cl₂ p.type (cl.globalSeq + 1) := by
        intro d rest hnext htype hm
        exact hbad ⟨(sendSucceeds_iff hcl).mp hsends, hstored.mp hm, ph, q, d, rest, hcl, hnext,
          htype⟩
      obtain ⟨h1, h2⟩ := awaitResponse_fresh hcl₂ hfirst hw
      obtain ⟨-, hbound, -, hall⟩ := awaitResponse_bounds hcl₂ hw
      exact ⟨h1.trans (and_iff_right hsends).symm, hbound, fun _ hne => ⟨h2 hne, hall hne⟩⟩

end Call

/-! ## An early response -/

/-- The frame of a response to the joint control packet number `1`. -/
def earlyResponse : List UInt8 := [0xAA, 0x55, 0, 8, 0, 0, 5, 1, 0, 0, 0xFF]

/-- A joint control packet. -/
def jointControl : Packet := ⟨[5, 16] ++ List.replicate 14 0, by decide, by decide⟩

/-- The client after the response, before anything was sent. -/
def earlyClient : UlisseClient :=
  ((run rxByte startedClient.rx earlyResponse).map fun x => startedClient.setRx x.1).getD
    startedClient

theorem earlyClient_reachable : ClientReachable (fun i => i.val) earlyClient := by
  have hstart := ClientReachable.start startedClient_started
  unfold earlyClient
  cases hrun : run rxByte startedClient.rx earlyResponse with
  | none => exact hstart
  | some x => exact hstart.recvs hrun

/-- Without the early response the joint status ends the waiting in a timeout. -/
theorem sendPacket_ack_started :
    ∃ ret, startedClient.sendPacket jointControl 1 (jointStatusFrame.map .byte) = .ok ret ∧
      FreshAck startedClient jointControl 1 ret := by
  have hcall : (startedClient.sendPacket jointControl 1
      (jointStatusFrame.map .byte)).toOption.isSome := by decide +kernel
  cases he : startedClient.sendPacket jointControl 1 (jointStatusFrame.map .byte) with
  | error e => rw [he] at hcall; cases hcall
  | ok ret =>
    refine ⟨ret, rfl, (sendPacket_ack_iff (.start startedClient_started) jointControl (by decide)
      he).mpr fun hstale => ?_⟩
    exact absurd hstale.stored (by decide +kernel)

/-- With it the first joint status makes the send succeed. -/
theorem sendPacket_ack_counterexample :
    ClientReachable (fun i => i.val) earlyClient ∧
    ∃ ret, earlyClient.sendPacket jointControl 1 (jointStatusFrame.map .byte) = .ok ret ∧
      ret.status = .success ∧ (deliveries ret.received).map (fun d => d.op.type) = [4] ∧
      ¬ FreshAck earlyClient jointControl 1 ret := by
  refine ⟨earlyClient_reachable, ?_⟩
  have hcall : (earlyClient.sendPacket jointControl 1 (jointStatusFrame.map .byte)).toOption.map
      (fun ret => (ret.status, (deliveries ret.received).map (fun d => d.op.type))) =
        some (.success, [4]) := by decide +kernel
  cases he : earlyClient.sendPacket jointControl 1 (jointStatusFrame.map .byte) with
  | error e => rw [he] at hcall; cases hcall
  | ok ret =>
    rw [he] at hcall
    simp only [Except.toOption, Option.map_some, Option.some.injEq, Prod.mk.injEq] at hcall
    obtain ⟨hstatus, htypes⟩ := hcall
    refine ⟨ret, rfl, hstatus, htypes, fun hfresh => ?_⟩
    obtain ⟨-, d, hd, hack⟩ := hfresh.success.mp hstatus
    have hmem := List.mem_map_of_mem (f := fun d => d.op.type) hd
    rw [htypes, List.mem_singleton] at hmem
    exact absurd (hmem.symm.trans hack.1) (by decide)

end Ulisse
