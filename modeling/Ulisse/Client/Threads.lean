import Ulisse.Client.Calls
import Ulisse.Handler.Halves
import Ulisse.Lib.Locks

/-!
# Client.Threads — the client's calls in several threads

`write_mutex` and `read_mutex` of `ulisse_client.c`.  A thread makes the calls that its `script`
asks for, which may depend on what the earlier ones returned.  Its program counter stands in front
of the next step: a mutex operation, one turn of a loop, or a stretch of code that touches the
client without waiting.  `end_epoch.seq` and the operations are read without a lock, as the code
does it.  The mutexes are taken as aligned and working ones, although the `pack(1)` that
`ulisse_packets.h` leaves in force may put them at odd addresses.
-/

namespace Ulisse

open BlockMem Locks

/-- The mutexes of a client, in the order in which `UlisseClient_sendPacket` takes them. -/
inductive Mutex where
  | write
  | read
  deriving Repr

def Mutex.rank : Mutex → ℕ
  | write => 0
  | read => 1

theorem Mutex.rank_injective : Function.Injective Mutex.rank := by
  intro a b h
  cases a <;> cases b <;> first | rfl | cases h

instance : LinearOrder Mutex := LinearOrder.lift' Mutex.rank Mutex.rank_injective

/-- A call that a thread makes. -/
inductive ThreadCall where
  | sendPacket (p : Packet) (timeout : ℤ)
  | get (type : UInt8)
  | sync (cycles : ℕ)

/-- What a call left: the packet that was sent has its new seq. -/
inductive ThreadReturn where
  | sent (status : PacketStatus) (p : Packet)
  | got (status : PacketStatus) (bytes : List UInt8)
  | synced

/-- What the threads share: the client, the answers that `read` has yet to give, and the values
handed to `write`. -/
structure Shared where
  client : UlisseClient
  answers : List ReadAnswer
  written : List (Option UInt8)

/-- Where a thread is. -/
inductive Pc where
  | ready
  | sendDeferred (p : Packet)
  | sendLockRead (p : Packet) (timeout : ℤ)
  | sendBlocking (p : Packet) (timeout : ℤ)
  | sendFlush (p : Packet) (timeout : ℤ)
  | sendAwait (p : Packet) (timeout : ℕ)
  | sendTest (p : Packet) (timeout : ℕ)
  | sendUnlockRead (status : PacketStatus) (p : Packet)
  | sendUnlockWrite (status : PacketStatus) (p : Packet)
  | getLock (ops : PacketOperations Obj.size)
  | getCopy (ops : PacketOperations Obj.size)
  | getUnlock (bytes : List UInt8)
  | syncLoop (cycles : ℕ)
  | syncFlush (cycles : ℕ)
  | syncUnlockWrite (cycles : ℕ)
  | syncSeq (cycles : ℕ)
  | syncLockRead (cycles : ℕ) (currentSeq : UInt16)
  | syncRead (cycles : ℕ) (currentSeq : UInt16)
  | syncUnlockRead (cycles : ℕ) (currentSeq : UInt16)
  | syncTest (cycles : ℕ) (currentSeq : UInt16)

structure Thread where
  pc : Pc
  returns : List ThreadReturn
  script : List ThreadReturn → Option ThreadCall

namespace Shared

/-- `_sendPacket` -/
def sendPacket (p : Packet) (s : Shared) : Except Stuck (Shared × PacketStatus × Packet) :=
  match Client.sendPacket s.client p with
  | none => .error .undefined
  | some (status, cl, p) => .ok ({ s with client := cl }, status, p)

/-- One turn of `_flushBuffer`; `true` if the loop ends. -/
def flushTurn (s : Shared) : Except Stuck (Shared × Bool) :=
  if s.client.packetHandler.txSize = 0 then .ok (s, true)
  else match s.client.packetHandler.txByte with
    | none => .error .undefined
    | some (h, c) =>
      .ok ({ s with
        client := { s.client with packetHandler := h }, written := s.written ++ [c] }, false)

/-- One turn of `_readPacket`; `true` if the packet is complete. -/
def readTurn (s : Shared) : Except Stuck (Shared × Bool) :=
  match s.answers with
  | [] => .error .blocked
  | a :: answers =>
    match a.fed with
    | none => .ok ({ s with answers }, false)
    | some c =>
      match rxByte s.client.rx c with
      | none => .error .undefined
      | some (rx, r) =>
        .ok ({ s with client := s.client.setRx rx, answers }, r.status == .syncChecksum)

end Shared

namespace Thread

/-- The thread goes on at `pc`. -/
def goto (th : Thread) (pc : Pc) : Thread := { th with pc }

/-- The call returns. -/
def returned (th : Thread) (r : ThreadReturn) : Thread :=
  { th with pc := .ready, returns := th.returns ++ [r] }

/-- `UlisseClient_get` up to the mutex: `ops` is read before it is taken. -/
def enterGet (th : Thread) (type : UInt8) (cl : UlisseClient) : Thread :=
  if ht : type.toNat < packetTypeMax then
    match cl.packetHandler.operations ⟨type.toNat, ht⟩ with
    | none => th.returned (.got .unknownType [])
    | some ops => th.goto (.getLock ops)
  else th.returned (.got .packetTypeOutOfBounds [])

/-- **The code**: what a thread does next. -/
def program (th : Thread) : Action Mutex Shared Thread Stuck :=
  match th.pc with
  | .ready =>
    match th.script th.returns with
    | none => .done
    | some (.sendPacket p timeout) =>
      .lock .write (th.goto (if timeout = 0 then .sendDeferred p else .sendLockRead p timeout))
    | some (.get type) => .work (look fun s => th.enterGet type s.client)
    | some (.sync cycles) => .work (look fun _ => th.goto (.syncLoop cycles))
  | .sendDeferred p =>
    .work (andThen (Shared.sendPacket p) fun r => th.goto (.sendUnlockWrite r.1 r.2))
  | .sendLockRead p timeout => .lock .read (th.goto (.sendBlocking p timeout))
  | .sendBlocking p timeout =>
    .work (andThen (Shared.sendPacket p) fun r =>
      th.goto (if r.1 ≠ .success then .sendUnlockRead r.1 r.2 else .sendFlush r.2 timeout))
  | .sendFlush p timeout =>
    .work (andThen Shared.flushTurn fun empty =>
      th.goto (if empty then .sendAwait p timeout.toNat else .sendFlush p timeout))
  | .sendAwait p 0 => .unlock .read (th.goto (.sendUnlockWrite .timeout p))
  | .sendAwait p (timeout + 1) =>
    .work (andThen Shared.readTurn fun complete =>
      th.goto (if complete then .sendTest p timeout else .sendAwait p (timeout + 1)))
  | .sendTest p timeout =>
    .work (look fun s => th.goto (if Client.ResponseMatches s.client p.type p.seq then
      .sendUnlockRead .success p else .sendAwait p timeout))
  | .sendUnlockRead status p => .unlock .read (th.goto (.sendUnlockWrite status p))
  | .sendUnlockWrite status p => .unlock .write (th.returned (.sent status p))
  | .getLock ops => .lock .read (th.goto (.getCopy ops))
  | .getCopy ops =>
    .work (look fun s => th.goto
      (.getUnlock ((readable s.client.mem ops.onReciveArgs).take ops.size.toNat)))
  | .getUnlock bytes => .unlock .read (th.returned (.got .success bytes))
  | .syncLoop 0 => .work (look fun _ => th.returned .synced)
  | .syncLoop (cycles + 1) => .lock .write (th.goto (.syncFlush cycles))
  | .syncFlush cycles =>
    .work (andThen Shared.flushTurn fun empty =>
      th.goto (if empty then .syncUnlockWrite cycles else .syncFlush cycles))
  | .syncUnlockWrite cycles => .unlock .write (th.goto (.syncSeq cycles))
  | .syncSeq cycles => .work (look fun s => th.goto (.syncLockRead cycles s.client.endEpochSeq))
  | .syncLockRead cycles currentSeq => .lock .read (th.goto (.syncRead cycles currentSeq))
  | .syncRead cycles currentSeq =>
    .work (andThen Shared.readTurn fun complete =>
      th.goto (if complete then .syncUnlockRead cycles currentSeq else
        .syncRead cycles currentSeq))
  | .syncUnlockRead cycles currentSeq => .unlock .read (th.goto (.syncTest cycles currentSeq))
  | .syncTest cycles currentSeq =>
    .work (look fun s => th.goto (if currentSeq = s.client.endEpochSeq then
      .syncLockRead cycles currentSeq else .syncLoop cycles))

end Thread

/-- The mutexes that are held at a program counter. -/
def Pc.held : Pc → Finset Mutex
  | .ready => ∅
  | .sendDeferred _ => {.write}
  | .sendLockRead _ _ => {.write}
  | .sendBlocking _ _ => {.read, .write}
  | .sendFlush _ _ => {.read, .write}
  | .sendAwait _ _ => {.read, .write}
  | .sendTest _ _ => {.read, .write}
  | .sendUnlockRead _ _ => {.read, .write}
  | .sendUnlockWrite _ _ => {.write}
  | .getLock _ => ∅
  | .getCopy _ => {.read}
  | .getUnlock _ => {.read}
  | .syncLoop _ => ∅
  | .syncFlush _ => {.write}
  | .syncUnlockWrite _ => {.write}
  | .syncSeq _ => ∅
  | .syncLockRead _ _ => ∅
  | .syncRead _ _ => {.read}
  | .syncUnlockRead _ _ => {.read}
  | .syncTest _ _ => ∅

/-! ## The sections as calls in one go -/

namespace Thread

/-- `UlisseClient_sendPacket` -/
def sendCall (th : Thread) (p : Packet) (timeout : ℤ) (s : Shared) :
    Except Stuck (Thread × Shared) :=
  (s.client.sendPacket p timeout s.answers).map fun r =>
    (th.returned (.sent r.status r.packet), ⟨r.client, r.rest, s.written ++ r.written⟩)

/-- The loop of `UlisseClient_sendPacket`. -/
def awaitCall (th : Thread) (p : Packet) (timeout : ℕ) (s : Shared) :
    Except Stuck (Thread × Shared) :=
  (Client.awaitResponse p.type p.seq timeout s.client s.answers).map fun r =>
    (th.returned (.sent r.1 p), ⟨r.2.1, r.2.2.2, s.written⟩)

/-- `_flushBuffer`, and then `next`. -/
def flushCall (s : Shared) (next : Shared → Except Stuck (Thread × Shared)) :
    Except Stuck (Thread × Shared) :=
  match Client.flushBuffer s.client with
  | none => .error .undefined
  | some (cl, written) => next { s with client := cl, written := s.written ++ written }

/-- `UlisseClient_sendPacket` with both mutexes taken. -/
def blockingCall (th : Thread) (p : Packet) (timeout : ℤ) (s : Shared) :
    Except Stuck (Thread × Shared) :=
  match s.sendPacket p with
  | .error e => .error e
  | .ok (s, status, p) =>
    if status ≠ .success then .ok (th.returned (.sent status p), s)
    else flushCall s (th.awaitCall p timeout.toNat)

/-- `_readPacket`. -/
def readCall (s : Shared) : Except Stuck Shared :=
  (Client.readPacket s.client s.answers).map fun r => { s with client := r.1, answers := r.2.2 }

/-- **The rest of a section**, by the functions of the client when nobody else is there: how it
leaves the thread and what is shared.  At the counters where no mutex is held this is a whole
section. -/
def meaning (th : Thread) (s : Shared) : Except Stuck (Thread × Shared) :=
  match th.pc with
  | .ready =>
    match th.script th.returns with
    | none => .ok (th, s)
    | some (.sendPacket p timeout) => th.sendCall p timeout s
    | some (.get type) => .ok (th.enterGet type s.client, s)
    | some (.sync cycles) => .ok (th.goto (.syncLoop cycles), s)
  | .sendDeferred p => th.sendCall p 0 s
  | .sendLockRead p timeout => th.blockingCall p timeout s
  | .sendBlocking p timeout => th.blockingCall p timeout s
  | .sendFlush p timeout => flushCall s (th.awaitCall p timeout.toNat)
  | .sendAwait p timeout => th.awaitCall p timeout s
  | .sendTest p timeout =>
    if Client.ResponseMatches s.client p.type p.seq then
      .ok (th.returned (.sent .success p), s)
    else th.awaitCall p timeout s
  | .sendUnlockRead status p => .ok (th.returned (.sent status p), s)
  | .sendUnlockWrite status p => .ok (th.returned (.sent status p), s)
  | .getLock ops =>
    .ok (th.returned (.got .success ((readable s.client.mem ops.onReciveArgs).take
      ops.size.toNat)), s)
  | .getCopy ops =>
    .ok (th.returned (.got .success ((readable s.client.mem ops.onReciveArgs).take
      ops.size.toNat)), s)
  | .getUnlock bytes => .ok (th.returned (.got .success bytes), s)
  | .syncLoop 0 => .ok (th.returned .synced, s)
  | .syncLoop (cycles + 1) => flushCall s fun s => .ok (th.goto (.syncSeq cycles), s)
  | .syncFlush cycles => flushCall s fun s => .ok (th.goto (.syncSeq cycles), s)
  | .syncUnlockWrite cycles => .ok (th.goto (.syncSeq cycles), s)
  | .syncSeq cycles => .ok (th.goto (.syncLockRead cycles s.client.endEpochSeq), s)
  | .syncLockRead cycles currentSeq =>
    (readCall s).map fun s => (th.goto (.syncTest cycles currentSeq), s)
  | .syncRead cycles currentSeq =>
    (readCall s).map fun s => (th.goto (.syncTest cycles currentSeq), s)
  | .syncUnlockRead cycles currentSeq => .ok (th.goto (.syncTest cycles currentSeq), s)
  | .syncTest cycles currentSeq =>
    .ok (th.goto (if currentSeq = s.client.endEpochSeq then .syncLockRead cycles currentSeq else
      .syncLoop cycles), s)

end Thread

end Ulisse
