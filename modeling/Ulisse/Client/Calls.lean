import Ulisse.Client.Basic

/-!
# Client.Calls — what the client does with the serial port

The second half of `ulisse_client.c`.  A call is given the answers of `read`, one for each time the
port is read, and says which of them it leaves.  It may be `blocked`, when it reads on after the
last answer, or `undefined`, when the handler is or when a loop of it cannot end.
-/

namespace Ulisse

open BlockMem

/-- What a `read` of one byte into the local `c` does: a byte; nothing (`0`); or an error (`-1`),
and then `c`, which is not initialized, holds whatever it held. -/
inductive ReadAnswer where
  | byte (c : UInt8)
  | nothing
  | error (held : UInt8)

/-- The byte that `_readPacket` feeds to the handler: it only asks whether `n` is zero. -/
def ReadAnswer.fed : ReadAnswer → Option UInt8
  | .byte c => some c
  | .nothing => none
  | .error held => some held

/-- Why a call does not return. -/
inductive Stuck where
  | blocked
  | undefined
  deriving DecidableEq, Repr

namespace UlisseClient

/-- What the receive functions see of the client. -/
def rx (cl : UlisseClient) : RxState Obj.size := ⟨cl.packetHandler, cl.mem⟩

def setRx (cl : UlisseClient) (s : RxState Obj.size) : UlisseClient :=
  { cl with packetHandler := s.h, mem := s.mem }

end UlisseClient

namespace Client

/-- The loop of `_flushBuffer`, at most `n` times: the values handed to `write`. -/
def flushLoop : ℕ → PacketHandler Obj.size →
    Option (PacketHandler Obj.size × List (Option UInt8))
  | 0, h => if h.txSize = 0 then some (h, []) else none
  | n + 1, h =>
    if h.txSize = 0 then some (h, [])
    else h.txByte.bind fun r => (flushLoop n r.1).map fun q => (q.1, r.2 :: q.2)

/-- `_flushBuffer`: every turn takes one byte out, so it ends if `tx_size` is not negative. -/
def flushBuffer (cl : UlisseClient) : Option (UlisseClient × List (Option UInt8)) :=
  (flushLoop cl.packetHandler.txSize.toNat cl.packetHandler).map fun q =>
    ({ cl with packetHandler := q.1 }, q.2)

/-- `_readPacket`: until a packet is complete.  The answers of the handler are kept. -/
def readPacket : UlisseClient → List ReadAnswer →
    Except Stuck (UlisseClient × List (RxReturn Obj.size) × List ReadAnswer)
  | _, [] => .error .blocked
  | cl, a :: answers =>
    match a.fed with
    | none => readPacket cl answers
    | some c =>
      match rxByte cl.rx c with
      | none => .error .undefined
      | some (s, r) =>
        if r.status = .syncChecksum then .ok (cl.setRx s, [r], answers)
        else (readPacket (cl.setRx s) answers).map fun q => (q.1, r :: q.2.1, q.2.2)

/-- `_sendPacket`: the status, the client and the packet with its new seq. -/
def sendPacket (cl : UlisseClient) (p : Packet) :
    Option (PacketStatus × UlisseClient × Packet) :=
  let cl := { cl with globalSeq := cl.globalSeq + 1 }
  if ht : p.type.toNat < packetTypeMax then
    let expectedSize := cl.packetSizes ⟨p.type.toNat, ht⟩
    if expectedSize = 0 then some (.unknownType, cl, p)
    else if p.size ≠ expectedSize then some (.invalidSize, cl, p)
    else
      let p := p.setSeq cl.globalSeq
      (cl.packetHandler.sendPacket p).map fun q => (q.1, { cl with packetHandler := q.2 }, p)
  else some (.unknownType, cl, p)

/-- `cl->response.p_type==awaited_type && cl->response.p_seq==awaited_seq` -/
def ResponseMatches (cl : UlisseClient) (awaitedType : UInt8) (awaitedSeq : UInt16) : Prop :=
  responsePType (cl.mem.cells .response) = awaitedType ∧
    responsePSeq (cl.mem.cells .response) = awaitedSeq

instance (cl : UlisseClient) (awaitedType : UInt8) (awaitedSeq : UInt16) :
    Decidable (ResponseMatches cl awaitedType awaitedSeq) := inferInstanceAs (Decidable (_ ∧ _))

/-- The loop of `UlisseClient_sendPacket`, with `timeout` packets to go. -/
def awaitResponse (awaitedType : UInt8) (awaitedSeq : UInt16) : ℕ → UlisseClient →
    List ReadAnswer →
    Except Stuck (PacketStatus × UlisseClient × List (RxReturn Obj.size) × List ReadAnswer)
  | 0, cl, answers => .ok (.timeout, cl, [], answers)
  | timeout + 1, cl, answers => do
    let (cl, rs, answers) ← readPacket cl answers
    if ResponseMatches cl awaitedType awaitedSeq then return (.success, cl, rs, answers)
    let (status, cl, rs', answers) ← awaitResponse awaitedType awaitedSeq timeout cl answers
    return (status, cl, rs ++ rs', answers)

end Client

/-- What `UlisseClient_sendPacket` leaves behind when it returns: also the values handed to `write`,
the handler's answers to the bytes read in the call, and the answers of `read` that are left. -/
structure SendReturn where
  status : PacketStatus
  client : UlisseClient
  packet : Packet
  written : List (Option UInt8)
  received : List (RxReturn Obj.size)
  rest : List ReadAnswer

namespace UlisseClient

/-- `UlisseClient_sendPacket` -/
def sendPacket (cl : UlisseClient) (p : Packet) (timeout : ℤ) (answers : List ReadAnswer) :
    Except Stuck SendReturn :=
  match Client.sendPacket cl p with
  | none => .error .undefined
  | some (status, cl, p) =>
    if timeout = 0 then .ok ⟨status, cl, p, [], [], answers⟩
    else if status ≠ .success then .ok ⟨status, cl, p, [], [], answers⟩
    else match Client.flushBuffer cl with
      | none => .error .undefined
      | some (cl, written) =>
        (Client.awaitResponse p.type p.seq timeout.toNat cl answers).map fun q =>
          ⟨q.1, q.2.1, p, written, q.2.2.1, q.2.2.2⟩

/-- `cl->end_epoch.seq` -/
def endEpochSeq (cl : UlisseClient) : UInt16 := headerSeq (cl.mem.cells .endEpoch)

end UlisseClient

/-! ## Waiting for the end of an epoch -/

/-- A packet takes at least one answer. -/
theorem readPacket_rest {cl cl' : UlisseClient} {answers rest : List ReadAnswer}
    {rs : List (RxReturn Obj.size)} (h : Client.readPacket cl answers = .ok (cl', rs, rest)) :
    rest.length < answers.length := by
  induction answers generalizing cl rs with
  | nil => cases h
  | cons a answers ih =>
    rw [List.length_cons]
    cases ha : a.fed with
    | none =>
      simp only [Client.readPacket, ha] at h
      exact Nat.lt_succ_of_lt (ih h)
    | some c =>
      simp only [Client.readPacket, ha] at h
      cases hb : rxByte cl.rx c with
      | none => simp only [hb] at h; cases h
      | some q =>
        simp only [hb] at h
        split_ifs at h with hs
        · simp only [Except.ok.injEq, Prod.mk.injEq] at h
          rw [h.2.2]
          exact Nat.lt_succ_self _
        · cases hr : Client.readPacket (cl.setRx q.1) answers with
          | error e => rw [hr] at h; cases h
          | ok x =>
            rw [hr] at h
            simp only [Except.map, Except.ok.injEq, Prod.mk.injEq] at h
            obtain ⟨rfl, -, rfl⟩ := h
            exact Nat.lt_succ_of_lt (ih hr)

/-- The `do`/`while` loop of `UlisseClient_sync`. -/
def Client.awaitEpoch (currentSeq : UInt16) (cl : UlisseClient) (answers : List ReadAnswer) :
    Except Stuck (UlisseClient × List ReadAnswer) :=
  match _h : readPacket cl answers with
  | .error e => .error e
  | .ok (cl', _, rest) =>
    if currentSeq = cl'.endEpochSeq then awaitEpoch currentSeq cl' rest else .ok (cl', rest)
termination_by answers.length
decreasing_by exact readPacket_rest _h

/-- `UlisseClient_sync`; nothing is returned but the state. -/
def UlisseClient.sync : ℕ → UlisseClient → List ReadAnswer →
    Except Stuck (UlisseClient × List ReadAnswer)
  | 0, cl, answers => .ok (cl, answers)
  | cycles + 1, cl, answers =>
    match Client.flushBuffer cl with
    | none => .error .undefined
    | some (cl, _) => do
      let (cl, answers) ← Client.awaitEpoch cl.endEpochSeq cl answers
      UlisseClient.sync cycles cl answers

end Ulisse
