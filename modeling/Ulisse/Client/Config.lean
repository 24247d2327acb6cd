import Ulisse.Client.Ack

/-!
# Client.Config — asking the robot for its parameters

`UlisseClient_readConfiguration` sends one `ParamControlPacket` three times, for another parameter
class each time, and stops at the first call that does not succeed.  It is the loop over the classes
that the code unrolls (`readConfiguration_eq`).  A call that succeeded leaves the response to its own
number behind, which is not the next one: only the first call can be taken in by an old response.
-/

namespace Ulisse

open BlockMem Run Framing

/-! ## The code -/

/-- `ParamRequest` -/
def paramRequest : UInt8 := 0

/-- `ParamSystem` -/
def paramSystem : UInt8 := 0

/-- `ParamJoints` -/
def paramJoints : UInt8 := 1

/-- `ParamDrive` -/
def paramDrive : UInt8 := 2

/-- A `ParamControlPacket` with this number that requests a parameter class. -/
def queryBytes (seq : UInt16) (paramType : UInt8) : List UInt8 :=
  [paramControlPacketId, UInt8.ofNat sizeofParamControlPacket, lowByte seq, highByte seq,
    paramRequest, paramType]

/-- `query` as it is first filled in. -/
def systemQuery : Packet := ⟨queryBytes 0 paramSystem, by decide, by decide⟩

/-- `query.param_type = paramType` -/
def Packet.setParamType (p : Packet) (paramType : UInt8) : Packet where
  bytes := p.bytes.set 5 paramType
  header_le := by rw [List.length_set]; exact p.header_le
  size_le := by
    rw [List.length_set]
    simpa using p.size_le

/-- What `UlisseClient_readConfiguration` returns, with the calls that it made: the status of each is
printed. -/
structure ConfigReturn where
  status : PacketStatus
  calls : List SendReturn

/-- `UlisseClient_readConfiguration`.  The packet is the same object in all calls, so it goes into
a call as the one before left it. -/
def UlisseClient.readConfiguration (cl : UlisseClient) (timeout : ℤ) (answers : List ReadAnswer) :
    Except Stuck ConfigReturn :=
  match cl.sendPacket systemQuery timeout answers with
  | .error e => .error e
  | .ok system =>
    if system.status ≠ .success then .ok ⟨system.status, [system]⟩
    else match system.client.sendPacket (system.packet.setParamType paramJoints) timeout
        system.rest with
      | .error e => .error e
      | .ok joints =>
        if joints.status ≠ .success then .ok ⟨joints.status, [system, joints]⟩
        else match joints.client.sendPacket (joints.packet.setParamType paramDrive) timeout
            joints.rest with
          | .error e => .error e
          | .ok drive =>
            if drive.status ≠ .success then .ok ⟨drive.status, [system, joints, drive]⟩
            else .ok ⟨drive.status, [system, joints, drive]⟩

/-! ## The loop -/

/-- Asking for one class after the other. -/
def Client.queryAll (timeout : ℤ) : List UInt8 → UlisseClient → Packet → List ReadAnswer →
    Except Stuck ConfigReturn
  | [], _, _, _ => .ok ⟨.success, []⟩
  | paramType :: paramTypes, cl, p, answers =>
    match cl.sendPacket (p.setParamType paramType) timeout answers with
    | .error e => .error e
    | .ok ret =>
      if ret.status ≠ .success then .ok ⟨ret.status, [ret]⟩
      else (Client.queryAll timeout paramTypes ret.client ret.packet ret.rest).map fun c =>
        ⟨c.status, ret :: c.calls⟩

/-- **The code is the loop** over the three classes. -/
theorem readConfiguration_eq (cl : UlisseClient) (timeout : ℤ) (answers : List ReadAnswer) :
    cl.readConfiguration timeout answers =
      Client.queryAll timeout [paramSystem, paramJoints, paramDrive] cl systemQuery answers := by
  have hfirst : systemQuery.setParamType paramSystem = systemQuery := rfl
  simp only [UlisseClient.readConfiguration, Client.queryAll, hfirst]
  cases cl.sendPacket systemQuery timeout answers with
  | error e => rfl
  | ok system =>
    dsimp only
    split_ifs
    · rfl
    · cases system.client.sendPacket (system.packet.setParamType paramJoints) timeout
        system.rest with
      | error e => rfl
      | ok joints =>
        dsimp only
        split_ifs
        · rfl
        · cases joints.client.sendPacket (joints.packet.setParamType paramDrive) timeout
            joints.rest with
          | error e => rfl
          | ok drive =>
            dsimp only
            split_ifs with hd
            · rfl
            · rw [not_not] at hd
              simp only [Except.map, hd]

/-! ## One call -/

section Query

variable {heap : Fin 4 → ℕ} {cl cl' : UlisseClient} {ph : ClientPhase}
  {q : RingQueue UInt8 packetSizeMax} {answers rest : List ReadAnswer} {type : UInt8} {seq : UInt16}
  {status : PacketStatus} {rs : List (RxReturn Obj.size)} {n : ℕ} {p : Packet} {paramType : UInt8}
  {timeout : ℤ} {ret : SendReturn}

/-- A query is of a type that the client knows, so only the ring can refuse it. -/
theorem clientSend_query (hcl : ClientAt heap cl ph q) (hp : p.bytes = queryBytes seq paramType) :
    (packetSizeMax < q.size + 9 ∧ ∃ cl₁, Client.sendPacket cl p =
      some (.txBufferFull, cl₁, p.setSeq (cl.globalSeq + 1))) ∨
    (q.size + 9 ≤ packetSizeMax ∧ ∃ cl₁, Client.sendPacket cl p =
      some (.success, cl₁, p.setSeq (cl.globalSeq + 1))) := by
  have htype : p.type = paramControlPacketId := by rw [Packet.type, hp]; rfl
  have hsize : p.size = 6 := by rw [Packet.size, hp]; rfl
  have ht : p.type.toNat < packetTypeMax := by rw [htype]; decide
  have hexp : cl.packetSizes ⟨p.type.toNat, ht⟩ = 6 := by
    rw [hcl.sizes]
    simp only [htype]
    rfl
  have hcounted : (p.setSeq (cl.globalSeq + 1)).size.toNat = 6 := by
    rw [Packet.setSeq_size, hsize]
    rfl
  have h0 : ¬ ((6 : UInt8) = 0) := by decide
  have hok : ¬ p.size ≠ 6 := not_not.mpr hsize
  rcases sendPacket_ring hcl.ring (p.setSeq (cl.globalSeq + 1)) with
    ⟨hfull, hs⟩ | ⟨hroom, h', q', hs, -⟩
  · rw [hcounted] at hfull
    refine Or.inl ⟨hfull, { cl with globalSeq := cl.globalSeq + 1 }, ?_⟩
    simp only [Client.sendPacket, dif_pos ht, hexp, if_neg h0, if_neg hok, hs]
    rfl
  · rw [hcounted] at hroom
    refine Or.inr ⟨hroom, { cl with globalSeq := cl.globalSeq + 1, packetHandler := h' }, ?_⟩
    simp only [Client.sendPacket, dif_pos ht, hexp, if_neg h0, if_neg hok, hs]
    rfl

/-- The number of a query is its own. -/
theorem setSeq_query (hp : p.bytes = queryBytes seq paramType) (s : UInt16) :
    (p.setSeq s).bytes = queryBytes s paramType := by
  show (p.bytes.set 2 (lowByte s)).set 3 (highByte s) = queryBytes s paramType
  rw [hp]
  rfl

theorem setParamType_query (hp : p.bytes = queryBytes seq paramType) (t : UInt8) :
    (p.setParamType t).bytes = queryBytes seq t := by
  show p.bytes.set 5 t = queryBytes seq t
  rw [hp]
  rfl

/-- A response to the packet of the call came in. -/
def SendReturn.Acked (ret : SendReturn) : Prop :=
  ∃ d ∈ deliveries ret.received, Acknowledges d paramControlPacketId ret.packet.seq

/-- A query with the number `seq` that was sent, and waited for. -/
structure Waited (heap : Fin 4 → ℕ) (seq : UInt16) (timeout : ℤ) (ret : SendReturn) : Prop where
  success : ret.status = .success ↔ ret.Acked
  failure : ret.status ≠ .success → ret.status = .timeout
  bound : (deliveries ret.received).length ≤ timeout.toNat
  counted : ret.client.globalSeq = seq
  client : ∃ ph q, ClientAt heap ret.client ph q ∧ q.size = 0
  response : ret.status = .success → Client.ResponseMatches ret.client paramControlPacketId seq

/-- **One call**: with room for the query it is sent and waited for, otherwise nothing happens. -/
theorem query_call (hcl : ClientAt heap cl ph q) (hp : p.bytes = queryBytes seq paramType)
    (ht : timeout ≠ 0)
    (hold : ¬ Client.ResponseMatches cl paramControlPacketId (cl.globalSeq + 1))
    (he : cl.sendPacket p timeout answers = .ok ret) :
    ret.packet.bytes = queryBytes (cl.globalSeq + 1) paramType ∧
      ((packetSizeMax < q.size + 9 ∧ ret.status = .txBufferFull ∧ ret.received = []) ∨
        (q.size + 9 ≤ packetSizeMax ∧ Waited heap (cl.globalSeq + 1) timeout ret)) := by
  have hbytes := setSeq_query hp (cl.globalSeq + 1)
  rcases clientSend_query hcl hp with ⟨hfull, cl₁, hs⟩ | ⟨hroom, cl₁, hs⟩
  · simp only [UlisseClient.sendPacket, hs, if_neg ht] at he
    rw [if_pos (by decide), Except.ok.injEq] at he
    subst he
    exact ⟨hbytes, Or.inl ⟨hfull, rfl, rfl⟩⟩
  · obtain ⟨status, cl₁', p', q₁, hs', hcl₁, hmem₁, hseq₁, -⟩ := clientSend_ok hcl p
    rw [hs] at hs'
    simp only [Option.some.injEq, Prod.mk.injEq] at hs'
    obtain ⟨rfl, rfl, rfl⟩ := hs'
    obtain ⟨cl₂, q₂, hf, hcl₂, hnil, hmem₂, hseq₂⟩ := flushBuffer_ok hcl₁
    have htype : (p.setSeq (cl.globalSeq + 1)).type = paramControlPacketId := by
      rw [Packet.type, hbytes]
      rfl
    simp only [UlisseClient.sendPacket, hs, if_neg ht, ne_eq, not_true_eq_false, if_false, hf,
      htype, Packet.setSeq_seq] at he
    cases hw : Client.awaitResponse paramControlPacketId (cl.globalSeq + 1) timeout.toNat cl₂
        answers with
    | error e => rw [hw] at he; cases he
    | ok x =>
      rw [hw] at he
      obtain rfl := Except.ok.inj he
      refine ⟨hbytes, Or.inr ⟨hroom, ?_⟩⟩
      obtain ⟨status, cl₃, rs, rest⟩ := x
      have hfirst : ¬ Client.ResponseMatches cl₂ paramControlPacketId (cl.globalSeq + 1) := by
        rw [Client.ResponseMatches, hmem₂, hmem₁]
        exact hold
      obtain ⟨hack, hfail⟩ := awaitResponse_fresh hcl₂ (fun _ _ _ _ => hfirst) hw
      obtain ⟨hseq₃, hcount, hmatch, -⟩ := awaitResponse_bounds hcl₂ hw
      obtain ⟨ph', hcl₃⟩ := awaitResponse_at hcl₂ hw
      have hempty : q₂.size = 0 := by
        rw [← RingQueue.length_toList, hnil]
        rfl
      have hp' : (p.setSeq (cl.globalSeq + 1)).seq = cl.globalSeq + 1 := Packet.setSeq_seq _ _
      refine ⟨?_, hfail, hcount, hseq₃.trans (hseq₂.trans hseq₁), ⟨ph', q₂, hcl₃, hempty⟩, hmatch⟩
      rw [SendReturn.Acked, hp']
      exact hack

/-- The response to one number is not one to the next. -/
theorem not_next (h : Client.ResponseMatches cl type seq) :
    ¬ Client.ResponseMatches cl type (seq + 1) := by
  intro h'
  have he : seq = seq + 1 := h.2.symm.trans h'.2
  have hn := congrArg UInt16.toNat he
  have hlt := seq.toNat_lt
  rw [UInt16.toNat_add] at hn
  have h1 : (1 : UInt16).toNat = 1 := rfl
  rw [h1] at hn
  omega

end Query

/-! ## All calls -/

/-- The queries for the classes, numbered from the one after `seq`. -/
def queries (seq : UInt16) : List UInt8 → List (List UInt8)
  | [] => []
  | paramType :: paramTypes => queryBytes (seq + 1) paramType :: queries (seq + 1) paramTypes

/-- **What asking for the classes comes to**, when the last number was `seq` and `queued` bytes were
queued: the queries go out in order as long as each is acknowledged, and success says that all of
them were. -/
structure Configures (seq : UInt16) (queued : ℕ) (timeout : ℤ) (paramTypes : List UInt8)
    (ret : ConfigReturn) : Prop where
  packets : ret.calls.map (fun c => c.packet.bytes) = (queries seq paramTypes).take ret.calls.length
  success : ret.status = .success ↔
    ret.calls.length = paramTypes.length ∧ ∀ c ∈ ret.calls, c.Acked
  acked : ∀ c ∈ ret.calls.dropLast, c.Acked
  failure : ret.status ≠ .success → ret.status = .timeout ∨
    ret.status = .txBufferFull ∧ ret.calls.length = 1 ∧ packetSizeMax < queued + 9
  bound : ∀ c ∈ ret.calls, (deliveries c.received).length ≤ timeout.toNat

section All

variable {heap : Fin 4 → ℕ} {cl : UlisseClient} {ph : ClientPhase}
  {q : RingQueue UInt8 packetSizeMax} {answers : List ReadAnswer} {seq : UInt16} {p : Packet}
  {paramType : UInt8} {paramTypes : List UInt8} {timeout : ℤ} {ret : ConfigReturn}

/-- The first call ends it, or the others follow it. -/
theorem queryAll_cons
    (he : Client.queryAll timeout (paramType :: paramTypes) cl p answers = .ok ret) :
    ∃ call, cl.sendPacket (p.setParamType paramType) timeout answers = .ok call ∧
      ((call.status ≠ .success ∧ ret = ⟨call.status, [call]⟩) ∨
        (call.status = .success ∧ ∃ c,
          Client.queryAll timeout paramTypes call.client call.packet call.rest = .ok c ∧
          ret = ⟨c.status, call :: c.calls⟩)) := by
  rw [Client.queryAll] at he
  cases hs : cl.sendPacket (p.setParamType paramType) timeout answers with
  | error e => rw [hs] at he; cases he
  | ok call =>
    rw [hs] at he
    refine ⟨call, rfl, ?_⟩
    dsimp only at he
    by_cases hst : call.status = .success
    · rw [if_neg (not_not.mpr hst)] at he
      cases hr : Client.queryAll timeout paramTypes call.client call.packet call.rest with
      | error e => rw [hr] at he; cases he
      | ok c =>
        rw [hr] at he
        exact Or.inr ⟨hst, c, rfl, (Except.ok.inj he).symm⟩
    · rw [if_pos hst] at he
      exact Or.inl ⟨hst, (Except.ok.inj he).symm⟩

theorem queryAll_configures (hcl : ClientAt heap cl ph q) (hp : p.bytes = queryBytes seq paramType)
    (ht : timeout ≠ 0)
    (hold : ¬ Client.ResponseMatches cl paramControlPacketId (cl.globalSeq + 1))
    (he : Client.queryAll timeout paramTypes cl p answers = .ok ret) :
    Configures cl.globalSeq q.size timeout paramTypes ret := by
  induction paramTypes generalizing cl ph q p answers seq paramType ret with
  | nil =>
    obtain rfl := Except.ok.inj he
    exact ⟨rfl, by simp, by simp, fun h => absurd rfl h, by simp⟩
  | cons t ts ih =>
    obtain ⟨call, hs, hcase⟩ := queryAll_cons he
    obtain ⟨hbytes, hcall⟩ := query_call hcl (setParamType_query hp t) ht hold hs
    rcases hcall with ⟨hfull, hst, hrec⟩ | ⟨-, hw⟩
    · -- the ring refuses the query
      rcases hcase with ⟨hne, rfl⟩ | ⟨hok, -⟩
      · refine ⟨?_, ?_, by simp, fun _ => Or.inr ⟨hst, rfl, hfull⟩, ?_⟩
        · simp [queries, hbytes]
        · refine iff_of_false hne ?_
          rintro ⟨-, hack⟩
          obtain ⟨d, hd, -⟩ := hack call (List.mem_singleton.mpr rfl)
          rw [hrec] at hd
          cases hd
        · intro c hc
          rw [List.mem_singleton.mp hc, hrec]
          exact Nat.zero_le _
      · rw [hst] at hok
        cases hok
    · rcases hcase with ⟨hne, rfl⟩ | ⟨hok, c, hr, rfl⟩
      · -- nobody answers in time
        refine ⟨?_, ?_, by simp, fun _ => Or.inl (hw.failure hne), ?_⟩
        · simp [queries, hbytes]
        · refine iff_of_false hne ?_
          rintro ⟨-, hack⟩
          exact hne (hw.success.mpr (hack call (List.mem_singleton.mpr rfl)))
        · intro c hc
          rw [List.mem_singleton.mp hc]
          exact hw.bound
      · have hack := hw.success.mp hok
        obtain ⟨ph', q', hcl', hempty⟩ := hw.client
        have hnext : ¬ Client.ResponseMatches call.client paramControlPacketId
            (call.client.globalSeq + 1) := by
          rw [hw.counted]
          exact not_next (hw.response hok)
        have hrest := ih hcl' hbytes hnext hr
        rw [hw.counted, hempty] at hrest
        refine ⟨?_, ?_, ?_, fun h => ?_, ?_⟩
        · simp only [List.map_cons, List.length_cons, queries, List.take_succ_cons, hbytes,
            hrest.packets]
        · rw [hrest.success, List.length_cons, List.length_cons, Nat.add_right_cancel_iff,
            List.forall_mem_cons]
          exact and_congr_right fun _ => (and_iff_right hack).symm
        · intro c' hc'
          cases hcs : c.calls with
          | nil => simp [hcs] at hc'
          | cons a as =>
            rw [hcs, List.dropLast_cons_cons] at hc'
            rcases List.mem_cons.mp hc' with rfl | hc'
            · exact hack
            · exact hrest.acked c' (by rw [hcs]; exact hc')
        · rcases hrest.failure h with h1 | ⟨-, -, h2⟩
          · exact Or.inl h1
          · exact absurd h2 (by decide)
        · intro c' hc'
          rcases List.mem_cons.mp hc' with rfl | hc'
          · exact hw.bound
          · exact hrest.bound c' hc'

/-- **Reading the configuration** succeeds exactly if each of the three queries, numbered on from
the last packet sent, is acknowledged in its own call; the next one is only sent after that. -/
theorem readConfiguration_configures (h : ClientReachable heap cl) (ht : timeout ≠ 0)
    (hold : ¬ Client.ResponseMatches cl paramControlPacketId (cl.globalSeq + 1))
    (he : cl.readConfiguration timeout answers = .ok ret) :
    Configures cl.globalSeq cl.packetHandler.txSize.toNat timeout
      [paramSystem, paramJoints, paramDrive] ret := by
  obtain ⟨ph, q, hcl⟩ := h.at
  have hsize : cl.packetHandler.txSize.toNat = q.size := by
    rw [hcl.ring.size]
    rfl
  rw [readConfiguration_eq] at he
  rw [hsize]
  exact queryAll_configures hcl rfl ht hold he

/-- The frame of a response to query number `seq`. -/
def queryResponse (seq : UInt8) : List UInt8 := [0xAA, 0x55, 0, 8, 0, 0, 1, seq, 0, 0, 0xFF]

/-- A robot that answers the first two queries, with a joint status in between. -/
def configAnswers : List ReadAnswer :=
  (queryResponse 1 ++ jointStatusFrame ++ queryResponse 2 ++ jointStatusFrame).map .byte

/-- The third query is not answered in time. -/
theorem readConfiguration_configures_two :
    ∃ ret, startedClient.readConfiguration 1 configAnswers = .ok ret ∧
      Configures 0 0 1 [paramSystem, paramJoints, paramDrive] ret := by
  have hcall : (startedClient.readConfiguration 1 configAnswers).toOption.isSome := by
    decide +kernel
  cases he : startedClient.readConfiguration 1 configAnswers with
  | error e => rw [he] at hcall; cases hcall
  | ok ret =>
    exact ⟨ret, rfl, readConfiguration_configures (.start startedClient_started) (by decide)
      (by decide +kernel) he⟩

end All

end Ulisse
