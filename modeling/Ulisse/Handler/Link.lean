import Ulisse.Handler.Duplex
import Ulisse.Handler.Stream

/-!
# Handler.Link — two handlers on a line

`packet_handler.c` is compiled into the host and into the robot.  Each node sends through its own
transmit ring and feeds the bytes that its peer took out of the other ring to its own receiver; the
line keeps their order, and the nodes move in any order (`linkStep`).  A node writes what its call of
`txByte` gives it, and the code never determines that value (`txStep_returned`): the link is reliable
on machines where the caller finds the byte that left the ring (`FindsHead`).  Each node's part of a
run is a run of its own handler, and a byte is queued, on the line or read (`Traced`).  So in both
directions at once what is delivered is what was accepted, from the front (`link_reliable`), and
what is still under way can always be brought home (`link_drains`).
-/

namespace Ulisse

open BlockMem Run Weave

variable {β : Type} {len : β → ℕ}

/-- The two ends of the line. -/
inductive Node where
  | host
  | robot
  deriving DecidableEq

/-- The other end. -/
def Node.peer : Node → Node
  | .host => .robot
  | .robot => .host

@[simp] theorem Node.peer_peer (n : Node) : n.peer.peer = n := by cases n <;> rfl

/-- The handlers with the memory around them, and what is on its way from each node to its peer. -/
structure Link {β : Type} (len : β → ℕ) where
  node : Node → RxState len
  line : Node → List UInt8

/-- A node sends or fetches a byte for the line, or reads one from it. -/
inductive LinkCall where
  | tx (n : Node) (call : TxCall)
  | read (n : Node)

/-- What the call did: at the ring, at the receiver with the byte that was read, or nothing. -/
inductive LinkReturn {β : Type} (len : β → ℕ) where
  | tx (n : Node) (call : TxCall) (r : TxReturn)
  | read (n : Node) (c : UInt8) (r : RxReturn len)
  | nothing

/-- What a node writes to its line after a call at the ring: if the ring held a byte, the value that
`txByte` returned, and `stray` where that is not determined. -/
def TxReturn.written? (stray : UInt8) (r : TxReturn) : Option UInt8 := r.returned?.map (·.getD stray)

/-- One call.  Like `_flushBuffer`, a node looks at `tx_size` before it fetches a byte, and writes the
value that it got; `stray` is what it finds where C determines none. -/
def linkStep [DecidableEq β] (stray : Node → PacketHandler len → UInt8) (l : Link len) :
    LinkCall → Option (Link len × LinkReturn len)
  | .tx n call => (txStep (l.node n).h call).map fun r =>
    (⟨Function.update l.node n ⟨r.1, (l.node n).mem⟩,
      Function.update l.line n (l.line n ++ (r.2.written? (stray n (l.node n).h)).toList)⟩,
      .tx n call r.2)
  | .read n =>
    match l.line n.peer with
    | [] => some (l, .nothing)
    | c :: cs => (rxByte (l.node n) c).map fun r =>
      (⟨Function.update l.node n r.1, Function.update l.line n.peer cs⟩, .read n c r.2)

/-! ## What a node writes -/

/-- The machine leaves the byte that `_txBuf_get` read where its caller looks for the value. -/
def FindsHead (stray : PacketHandler len → UInt8) : Prop :=
  ∀ h c, h.txHead = some c → stray h = c

/-- **On such a machine** a node writes the byte that left the ring. -/
theorem txStep_written {stray : PacketHandler len → UInt8} (hf : FindsHead stray)
    {h h' : PacketHandler len} {call : TxCall} {r : TxReturn}
    (he : txStep h call = some (h', r)) : r.written? (stray h) = r.removed? := by
  cases call with
  | sendPacket p =>
    obtain ⟨q, -, hq⟩ := Option.map_eq_some_iff.mp he
    obtain ⟨-, rfl⟩ := Prod.mk.inj hq
    rfl
  | txByte =>
    obtain ⟨q, hb, hq⟩ := Option.map_eq_some_iff.mp he
    obtain ⟨-, rfl⟩ := Prod.mk.inj hq
    cases hh : h.txHead with
    | none => rfl
    | some c =>
      have hsize : h.txSize ≠ 0 := by
        intro h0
        rw [PacketHandler.txHead, if_pos h0] at hh
        cases hh
      rw [PacketHandler.txByte, PacketHandler.txBufGet, if_neg hsize] at hb
      obtain ⟨i, -, rfl⟩ := Option.map_eq_some_iff.mp hb
      show some (stray h) = some c
      rw [hf h c hh]

/-! ## What a node did -/

/-- The call at the handler of `n`, with its answer. -/
def LinkReturn.at? (n : Node) :
    LinkReturn len → Option ((UInt8 ⊕ TxCall) × (RxReturn len ⊕ TxReturn))
  | .tx m call r => if m = n then some (.inr call, .inr r) else none
  | .read m c r => if m = n then some (.inl c, .inl r) else none
  | .nothing => none

/-- The calls at the handler of `n`. -/
def callsAt (n : Node) (os : List (LinkReturn len)) : List (UInt8 ⊕ TxCall) :=
  (os.filterMap (LinkReturn.at? n)).map Prod.fst

/-- Their answers. -/
def answersAt (n : Node) (os : List (LinkReturn len)) : List (RxReturn len ⊕ TxReturn) :=
  (os.filterMap (LinkReturn.at? n)).map Prod.snd

/-- The bytes that `n` read. -/
def readBy (n : Node) (os : List (LinkReturn len)) : List UInt8 := lefts (callsAt n os)

/-- The bytes that left the ring of `n`. -/
def removedAt (n : Node) (os : List (LinkReturn len)) : List UInt8 :=
  removed (rights (answersAt n os))

/-- The packets that `n` accepted for its peer. -/
def acceptedBy (n : Node) (os : List (LinkReturn len)) : List Packet :=
  accepted (rights (answersAt n os))

/-- The packets that were delivered at `n`. -/
def deliveredAt (n : Node) (os : List (LinkReturn len)) : List (Delivery len) :=
  deliveries (lefts (answersAt n os))

section Histories

variable {n m : Node} {os : List (LinkReturn len)} {o : LinkReturn len}

theorem callsAt_concat_none (h : o.at? n = none) : callsAt n (os ++ [o]) = callsAt n os := by
  simp [callsAt, h]

theorem answersAt_concat_none (h : o.at? n = none) : answersAt n (os ++ [o]) = answersAt n os := by
  simp [answersAt, h]

theorem callsAt_concat_some {x : UInt8 ⊕ TxCall} {y : RxReturn len ⊕ TxReturn}
    (h : o.at? n = some (x, y)) : callsAt n (os ++ [o]) = callsAt n os ++ [x] := by
  simp [callsAt, h]

theorem answersAt_concat_some {x : UInt8 ⊕ TxCall} {y : RxReturn len ⊕ TxReturn}
    (h : o.at? n = some (x, y)) : answersAt n (os ++ [o]) = answersAt n os ++ [y] := by
  simp [answersAt, h]

theorem removedAt_concat_none (h : o.at? n = none) : removedAt n (os ++ [o]) = removedAt n os := by
  rw [removedAt, removedAt, answersAt_concat_none h]

theorem readBy_concat_none (h : o.at? n = none) : readBy n (os ++ [o]) = readBy n os := by
  rw [readBy, readBy, callsAt_concat_none h]

theorem removedAt_concat_tx {call : TxCall} {r : TxReturn}
    (h : o.at? n = some (.inr call, .inr r)) :
    removedAt n (os ++ [o]) = removedAt n os ++ r.removed?.toList := by
  rw [removedAt, removedAt, answersAt_concat_some h]
  cases hv : r.removed? <;> simp [removed, hv]

theorem readBy_concat_tx {call : TxCall} {r : TxReturn} (h : o.at? n = some (.inr call, .inr r)) :
    readBy n (os ++ [o]) = readBy n os := by
  rw [readBy, readBy, callsAt_concat_some h]
  simp

theorem removedAt_concat_read {c : UInt8} {q : RxReturn len}
    (h : o.at? n = some (.inl c, .inl q)) : removedAt n (os ++ [o]) = removedAt n os := by
  rw [removedAt, removedAt, answersAt_concat_some h]
  simp

theorem readBy_concat_read {c : UInt8} {q : RxReturn len} (h : o.at? n = some (.inl c, .inl q)) :
    readBy n (os ++ [o]) = readBy n os ++ [c] := by
  rw [readBy, readBy, callsAt_concat_some h]
  simp

end Histories

/-! ## Runs of the link -/

section Runs

variable [DecidableEq β] {stray : Node → PacketHandler len → UInt8} {l₀ l l' : Link len}
  {os : List (LinkReturn len)} {o : LinkReturn len} {call : LinkCall} {calls : List LinkCall}

/-- **Where the link stands** after the answers `os`: each node where its own calls take it, and
every byte that left a ring read by the peer or on the line. -/
structure Traced (l₀ : Link len) (os : List (LinkReturn len)) (l : Link len) : Prop where
  node : ∀ n, run (beside rxByte) (l₀.node n) (callsAt n os) = some (l.node n, answersAt n os)
  line : ∀ n, l₀.line n ++ removedAt n os = readBy n.peer os ++ l.line n

theorem linkStep_read {n : Node} {c : UInt8} {cs : List UInt8} {s : RxState len} {r : RxReturn len}
    (hline : l.line n.peer = c :: cs) (hr : rxByte (l.node n) c = some (s, r)) :
    linkStep stray l (.read n) =
      some (⟨Function.update l.node n s, Function.update l.line n.peer cs⟩, .read n c r) := by
  rw [linkStep, hline]
  simp only [hr, Option.map_some]

theorem Traced.start (l : Link len) : Traced l [] l := ⟨fun _ => rfl, fun _ => by
  simp [removedAt, readBy, callsAt, answersAt, removed]⟩

/-- A node at which `o` called nothing is where it was. -/
theorem Traced.node_none (h : Traced l₀ os l) {n : Node} (ho : o.at? n = none) :
    run (beside rxByte) (l₀.node n) (callsAt n (os ++ [o])) =
      some (l.node n, answersAt n (os ++ [o])) := by
  rw [callsAt_concat_none ho, answersAt_concat_none ho]
  exact h.node n

/-- A node at which `o` called something goes where that leads. -/
theorem Traced.node_some (h : Traced l₀ os l) {n : Node} {x : UInt8 ⊕ TxCall}
    {y : RxReturn len ⊕ TxReturn} {s : RxState len} (ho : o.at? n = some (x, y))
    (hs : beside rxByte (l.node n) x = some (s, y)) :
    run (beside rxByte) (l₀.node n) (callsAt n (os ++ [o])) =
      some (s, answersAt n (os ++ [o])) := by
  rw [callsAt_concat_some ho, answersAt_concat_some ho]
  exact run_append_of (h.node n) (run_singleton hs)

/-- A call at the ring of `m`, seen from both nodes. -/
theorem Traced.tx (h : Traced l₀ os l) {m : Node} {call : TxCall} {g : PacketHandler len}
    {r : TxReturn} (hr : txStep (l.node m).h call = some (g, r)) :
    Traced l₀ (os ++ [.tx m call r])
      ⟨Function.update l.node m ⟨g, (l.node m).mem⟩,
        Function.update l.line m (l.line m ++ r.removed?.toList)⟩ := by
  have hself : (LinkReturn.tx m call r : LinkReturn len).at? m = some (.inr call, .inr r) :=
    if_pos rfl
  have hother : ∀ n, n ≠ m → (LinkReturn.tx m call r : LinkReturn len).at? n = none :=
    fun n hn => if_neg (Ne.symm hn)
  have hread : ∀ n, readBy n (os ++ [LinkReturn.tx m call r]) = readBy n os := by
    intro n
    by_cases hn : n = m
    · subst hn
      exact readBy_concat_tx hself
    · exact readBy_concat_none (hother n hn)
  refine ⟨fun n => ?_, fun n => ?_⟩
  · dsimp only
    by_cases hn : n = m
    · subst hn
      rw [Function.update_self]
      refine h.node_some hself ?_
      rw [beside, hr]
      rfl
    · rw [Function.update_of_ne hn]
      exact h.node_none (hother n hn)
  · dsimp only
    rw [hread]
    by_cases hn : n = m
    · subst hn
      rw [Function.update_self, removedAt_concat_tx hself, ← List.append_assoc, h.line n,
        List.append_assoc]
    · rw [Function.update_of_ne hn, removedAt_concat_none (hother n hn)]
      exact h.line n

/-- A byte read at `m`, seen from both nodes. -/
theorem Traced.read (h : Traced l₀ os l) {m : Node} {c : UInt8} {cs : List UInt8} {s : RxState len}
    {r : RxReturn len} (hline : l.line m.peer = c :: cs) (hr : rxByte (l.node m) c = some (s, r)) :
    Traced l₀ (os ++ [.read m c r])
      ⟨Function.update l.node m s, Function.update l.line m.peer cs⟩ := by
  have hself : (LinkReturn.read m c r).at? m = some (.inl c, .inl r) := if_pos rfl
  have hother : ∀ n, n ≠ m → (LinkReturn.read m c r).at? n = none :=
    fun n hn => if_neg (Ne.symm hn)
  have hrem : ∀ n, removedAt n (os ++ [LinkReturn.read m c r]) = removedAt n os := by
    intro n
    by_cases hn : n = m
    · subst hn
      exact removedAt_concat_read hself
    · exact removedAt_concat_none (hother n hn)
  refine ⟨fun n => ?_, fun n => ?_⟩
  · dsimp only
    by_cases hn : n = m
    · subst hn
      rw [Function.update_self]
      refine h.node_some hself ?_
      rw [beside, hr]
      rfl
    · rw [Function.update_of_ne hn]
      exact h.node_none (hother n hn)
  · dsimp only
    rw [hrem]
    by_cases hn : n = m.peer
    · subst hn
      rw [Function.update_self, Node.peer_peer, readBy_concat_read hself, h.line m.peer, hline,
        Node.peer_peer]
      simp
    · have hpeer : n.peer ≠ m := by
        rintro rfl
        exact hn (Node.peer_peer n).symm
      rw [Function.update_of_ne hn, readBy_concat_none (hother n.peer hpeer)]
      exact h.line n

/-- One call, seen from the nodes. -/
theorem Traced.step (hstray : ∀ n, FindsHead (stray n)) (h : Traced l₀ os l)
    (he : linkStep stray l call = some (l', o)) : Traced l₀ (os ++ [o]) l' := by
  cases call with
  | tx m call =>
    obtain ⟨⟨g, r⟩, hr, hl⟩ := Option.map_eq_some_iff.mp he
    obtain ⟨rfl, rfl⟩ := Prod.mk.inj hl
    rw [txStep_written (hstray m) hr]
    exact h.tx hr
  | read m =>
    rw [linkStep] at he
    cases hline : l.line m.peer with
    | nil =>
      rw [hline] at he
      obtain ⟨rfl, rfl⟩ := result_unique rfl he
      refine ⟨fun n => h.node_none rfl, fun n => ?_⟩
      rw [removedAt_concat_none rfl, readBy_concat_none rfl]
      exact h.line n
    | cons c cs =>
      rw [hline] at he
      obtain ⟨⟨s, r⟩, hr, hl⟩ := Option.map_eq_some_iff.mp he
      obtain ⟨rfl, rfl⟩ := Prod.mk.inj hl
      exact h.read hline hr

theorem link_traced (hstray : ∀ n, FindsHead (stray n))
    (hrun : run (linkStep stray) l₀ calls = some (l, os)) : Traced l₀ os l :=
  run_history (J := fun _ os l => Traced l₀ os l) (.start l₀)
    (fun _ _ _ _ _ _ hJ hs => hJ.step hstray hs) hrun

/-- What one call adds to the packets that `n` accepted. -/
theorem acceptedBy_step (os : List (LinkReturn len)) (he : linkStep stray l call = some (l', o))
    (n : Node) :
    ∃ ps, acceptedBy n (os ++ [o]) = acceptedBy n os ++ ps ∧
      ∀ p ∈ ps, call = .tx n (.sendPacket p) := by
  have hnone : o.at? n = none → acceptedBy n (os ++ [o]) = acceptedBy n os ++ [] := by
    intro ho
    rw [acceptedBy, answersAt_concat_none ho, List.append_nil, acceptedBy]
  cases call with
  | read m =>
    refine ⟨[], ?_, fun p hp => absurd hp List.not_mem_nil⟩
    rw [linkStep] at he
    cases hline : l.line m.peer with
    | nil =>
      rw [hline] at he
      obtain ⟨-, rfl⟩ := result_unique rfl he
      exact hnone rfl
    | cons c cs =>
      rw [hline] at he
      obtain ⟨⟨s, r⟩, -, hr⟩ := Option.map_eq_some_iff.mp he
      obtain ⟨-, rfl⟩ := Prod.mk.inj hr
      by_cases hmn : m = n
      · have ho : (LinkReturn.read m c r).at? n = some (.inl c, .inl r) := if_pos hmn
        rw [acceptedBy, answersAt_concat_some ho, acceptedBy]
        simp
      · exact hnone (if_neg hmn)
  | tx m call =>
    obtain ⟨⟨g, r⟩, hr, hq⟩ := Option.map_eq_some_iff.mp he
    obtain ⟨-, rfl⟩ := Prod.mk.inj hq
    by_cases hmn : m = n
    · have ho : (LinkReturn.tx m call r : LinkReturn len).at? n = some (.inr call, .inr r) :=
        if_pos hmn
      refine ⟨r.accepted?.toList, ?_, fun p hp => ?_⟩
      · rw [acceptedBy, answersAt_concat_some ho, acceptedBy]
        cases hv : r.accepted? <;> simp [accepted, hv]
      · cases call with
        | txByte =>
          obtain ⟨q, -, hq⟩ := Option.map_eq_some_iff.mp hr
          obtain ⟨-, rfl⟩ := Prod.mk.inj hq
          simp [TxReturn.accepted?] at hp
        | sendPacket p' =>
          obtain ⟨⟨status, g⟩, -, hq⟩ := Option.map_eq_some_iff.mp hr
          obtain ⟨-, rfl⟩ := Prod.mk.inj hq
          cases status <;> simp [TxReturn.accepted?] at hp
          rw [hp, hmn]
    · exact ⟨[], hnone (if_neg hmn), fun p hp => absurd hp List.not_mem_nil⟩

/-- An accepted packet was sent. -/
theorem acceptedBy_sent (hrun : run (linkStep stray) l₀ calls = some (l, os)) {n : Node}
    {p : Packet} (hp : p ∈ acceptedBy n os) : .tx n (.sendPacket p) ∈ calls := by
  refine run_history (J := fun calls os _ => p ∈ acceptedBy n os → .tx n (.sendPacket p) ∈ calls)
    (fun h => absurd h List.not_mem_nil) ?_ hrun hp
  intro calls os t call u o hJ hs hp
  obtain ⟨ps, he, hps⟩ := acceptedBy_step os hs n
  rw [he, List.mem_append] at hp
  rw [List.mem_append, List.mem_singleton]
  exact hp.imp hJ fun h => (hps p h).symm

end Runs

/-! ## One direction -/

/-- Nothing was sent and no frame has begun. -/
structure Link.Fresh (l : Link len) : Prop where
  hunting : ∀ n, (l.node n).h.rxFn = .rxAA
  ring : ∀ n, (l.node n).h.txStart = 0 ∧ (l.node n).h.txEnd = 0 ∧ (l.node n).h.txSize = 0
  line : ∀ n, l.line n = []

/-- Each node takes what its peer sends. -/
def Link.Accords (l : Link len) (opOf : Node → UInt8 → PacketOperations len) (n : Node)
    (p : Packet) : Prop :=
  Takes (l.node n.peer).h.operations (opOf n.peer p.type) p

/-- What a node's table makes of packets. -/
def expected (op : UInt8 → PacketOperations len) (ps : List Packet) : List (Delivery len) :=
  ps.flatMap fun p => (op p.type).deliver p.content

theorem Link.Fresh.ringAt {l : Link len} (h : l.Fresh) (n : Node) :
    RingAt (l.node n).h (RingQueue.empty (l.node n).h.txBuffer (by decide)) := by
  obtain ⟨h1, h2, h3⟩ := h.ring n
  exact ⟨rfl, h1, h2, h3⟩

section Directions

variable [DecidableEq β] {stray : Node → PacketHandler len → UInt8} {l₀ l l' : Link len}
  {os : List (LinkReturn len)} {calls : List LinkCall} {opOf : Node → UInt8 → PacketOperations len}

/-- A node's part of a run, half by half. -/
theorem Traced.halves (h : Traced l₀ os l) (n : Node) :
    ∃ s g, run rxByte (l₀.node n) (readBy n os) = some (s, lefts (answersAt n os)) ∧
      run txStep (l₀.node n).h (rights (callsAt n os)) = some (g, rights (answersAt n os)) ∧
      l.node n = s.withTx g :=
  (beside_splits rxByte_withTx).run_some (h.node n)

/-- The ring of a node is a ring. -/
theorem Traced.ring (h : Traced l₀ os l) (hfresh : l₀.Fresh) (n : Node) :
    ∃ q, RingAt (l.node n).h q := by
  obtain ⟨s, g, -, hrun, he⟩ := h.halves n
  obtain ⟨g', rs, hrun', q, hq⟩ := txRun_ring (hfresh.ringAt n) (rights (callsAt n os))
  obtain ⟨rfl, -⟩ := result_unique hrun hrun'
  refine ⟨q, ?_⟩
  rw [he]
  exact ⟨hq.cells, hq.start, hq.tail, hq.size⟩

/-- **Flow**: the frames that a node accepted are what its peer read, what is on the line and what
is queued. -/
theorem Traced.flow (h : Traced l₀ os l) (hfresh : l₀.Fresh) (n : Node) :
    (acceptedBy n os).flatMap Packet.frame =
      readBy n.peer os ++ (l.line n ++ (l.node n).h.txQueue) := by
  obtain ⟨s, g, -, hrun, he⟩ := h.halves n
  have hcons := txRun_conserves (hfresh.ringAt n) hrun
  have hline := h.line n
  have hqueue : (l.node n).h.txQueue = g.txQueue := by
    rw [he]
    rfl
  rw [(hfresh.ringAt n).queue, RingQueue.toList_empty, List.nil_append] at hcons
  rw [hfresh.line n, List.nil_append] at hline
  rw [acceptedBy, hcons, ← List.append_assoc, ← hline, hqueue]
  rfl

/-- **Reception**: the receiver of a node takes the whole flow of its peer in, and has so far made of
it what it was given. -/
theorem Traced.reception (h : Traced l₀ os l) (hfresh : l₀.Fresh) {n : Node}
    (htakes : ∀ p ∈ acceptedBy n os, l₀.Accords opOf n p) :
    ∃ s g s' rs, l.node n.peer = s.withTx g ∧
      run rxByte s (l.line n ++ (l.node n).h.txQueue) = some (s', rs) ∧
      deliveredAt n.peer os ++ deliveries rs = expected (opOf n.peer) (acceptedBy n os) := by
  obtain ⟨s, g, hrun, -, he⟩ := h.halves n.peer
  obtain ⟨s', qs, hall, -, hdel⟩ :=
    rxRun_packets (opOf n.peer) (acceptedBy n os) htakes (RxAt.hunting (hfresh.hunting n.peer))
  rw [h.flow hfresh n] at hall
  obtain ⟨s₁, rs₁, rs, h1, h2, rfl⟩ := run_split hall
  obtain ⟨rfl, rfl⟩ := result_unique hrun h1
  refine ⟨s, g, s', rs, he, h2, ?_⟩
  rw [deliveredAt, ← deliveries_append]
  exact hdel

/-- With nothing under way, everything has arrived. -/
theorem Traced.arrived (h : Traced l₀ os l) (hfresh : l₀.Fresh) {n : Node}
    (htakes : ∀ p ∈ acceptedBy n os, l₀.Accords opOf n p) (hline : l.line n = [])
    (hsize : (l.node n).h.txSize = 0) :
    deliveredAt n.peer os = expected (opOf n.peer) (acceptedBy n os) := by
  obtain ⟨s, g, s', rs, -, hrest, hdel⟩ := h.reception hfresh htakes
  have hqueue : (l.node n).h.txQueue = [] := by
    rw [PacketHandler.txQueue, hsize]
    rfl
  rw [hline, hqueue] at hrest
  obtain ⟨-, rfl⟩ := run_nil_some hrest
  rw [← hdel, deliveries_nil, List.append_nil]

/-- **Progress**: every call is defined. -/
theorem Traced.defined (h : Traced l₀ os l) (hfresh : l₀.Fresh)
    (htakes : ∀ n, ∀ p ∈ acceptedBy n os, l₀.Accords opOf n p) (call : LinkCall) :
    ∃ l' o, linkStep stray l call = some (l', o) := by
  cases call with
  | tx n call =>
    obtain ⟨q, hq⟩ := h.ring hfresh n
    obtain ⟨g, r, q', he, -⟩ := txStep_conserves hq call
    exact ⟨_, _, by rw [linkStep, he]; rfl⟩
  | read n =>
    cases hline : l.line n.peer with
    | nil => exact ⟨_, _, by rw [linkStep, hline]⟩
    | cons c cs =>
      obtain ⟨s, g, s', rs, he, hrun, -⟩ := h.reception hfresh (htakes n.peer)
      rw [hline] at hrun
      obtain ⟨s₁, r, rs', h1, -, -⟩ := run_cons_some.mp hrun
      rw [Node.peer_peer] at he
      have hs : rxByte (l.node n) c = some (s₁.withTx g, r) := by
        rw [he, rxByte_withTx, h1]
        rfl
      exact ⟨_, _, linkStep_read hline hs⟩

/-- Every run is defined, and leads to where its answers say. -/
theorem linkRun_total (hstray : ∀ n, FindsHead (stray n)) (hfresh : l₀.Fresh)
    (htakes : ∀ n p, .tx n (.sendPacket p) ∈ calls → l₀.Accords opOf n p) :
    ∃ l os, run (linkStep stray) l₀ calls = some (l, os) := by
  induction calls using List.reverseRecOn with
  | nil => exact ⟨l₀, [], rfl⟩
  | append_singleton calls call ih =>
    obtain ⟨l, os, hrun⟩ := ih fun n p hp => htakes n p (List.mem_append_left _ hp)
    obtain ⟨l', o, hs⟩ := (link_traced hstray hrun).defined hfresh
      (fun n p hp => htakes n p (List.mem_append_left _ (acceptedBy_sent hrun hp))) call
    exact ⟨l', os ++ [o], run_append_of hrun (run_singleton hs)⟩

/-- **The link is reliable** in both directions at once, in every interleaving of sends, fetches and
reads, if a caller of `txByte` finds the byte that left the ring: each node has got, once, whole and
in order, the first of the packets that its peer accepted, and all of them when nothing is under
way. -/
theorem link_reliable (hstray : ∀ n, FindsHead (stray n)) (hfresh : l₀.Fresh)
    (htakes : ∀ n p, .tx n (.sendPacket p) ∈ calls → l₀.Accords opOf n p) :
    ∃ l os, run (linkStep stray) l₀ calls = some (l, os) ∧ ∀ n,
      deliveredAt n.peer os <+: expected (opOf n.peer) (acceptedBy n os) ∧
      (l.line n = [] → (l.node n).h.txSize = 0 →
        deliveredAt n.peer os = expected (opOf n.peer) (acceptedBy n os)) := by
  obtain ⟨l, os, hrun⟩ := linkRun_total hstray hfresh htakes
  have htr := link_traced hstray hrun
  refine ⟨l, os, hrun, fun n => ?_⟩
  have hacc : ∀ p ∈ acceptedBy n os, l₀.Accords opOf n p :=
    fun p hp => htakes n p (acceptedBy_sent hrun hp)
  obtain ⟨s, g, s', rs, -, -, hdel⟩ := htr.reception hfresh hacc
  exact ⟨⟨_, hdel⟩, htr.arrived hfresh hacc⟩

/-- A machine on which the byte is still where the caller looks. -/
def leftByte (_ : Node) (h : PacketHandler oneBlock) : UInt8 := h.txHead.getD 0

theorem leftByte_findsHead (n : Node) : FindsHead (leftByte n) := by
  intro h c hh
  rw [leftByte, hh]
  rfl

/-- Two listeners for the same packets. -/
def twoListeners : Link oneBlock := ⟨fun _ => listener 2 8, fun _ => []⟩

theorem twoListeners_fresh : twoListeners.Fresh where
  hunting _ := listener_rxFn (by decide)
  ring _ := ⟨rfl, rfl, rfl⟩
  line _ := rfl

theorem twoListeners_accords (n : Node) :
    twoListeners.Accords (fun _ _ => bufferedOp 2 8) n framedPacket :=
  ⟨(listener_lookup (by decide)).mpr ⟨rfl, rfl⟩, rfl, rfl, by decide, by decide, bufferedOp_fits,
    bufferedOp_neverRefuses⟩

/-- Both send, and then each fetches a byte and reads one, eleven times. -/
def crossing : List LinkCall :=
  [.tx .host (.sendPacket framedPacket), .tx .robot (.sendPacket framedPacket)] ++
    (List.replicate 11 [.tx .host .txByte, .tx .robot .txByte, .read .robot, .read .host]).flatten

theorem crossing_accords (n : Node) (p : Packet) (hp : .tx n (.sendPacket p) ∈ crossing) :
    twoListeners.Accords (fun _ _ => bufferedOp 2 8) n p := by
  have he : p = framedPacket := by
    cases n <;> simpa [crossing] using hp
  rw [he]
  exact twoListeners_accords n

/-- With a whole packet brought home in each direction. -/
theorem link_reliable_crossing :
    ∃ l os, run (linkStep leftByte) twoListeners crossing = some (l, os) ∧ ∀ n,
      l.line n = [] ∧ (l.node n).h.txSize = 0 ∧ acceptedBy n os = [framedPacket] ∧
      deliveredAt n.peer os = [⟨bufferedOp 2 8, framedPacket.content⟩] := by
  obtain ⟨l, os, hrun, hall⟩ :=
    link_reliable leftByte_findsHead twoListeners_fresh crossing_accords
  refine ⟨l, os, hrun, fun n => ?_⟩
  have hends : (run (linkStep leftByte) twoListeners crossing).map (fun r =>
      (r.1.line n, (r.1.node n).h.txSize, acceptedBy n r.2)) = some ([], 0, [framedPacket]) := by
    cases n <;> decide +kernel
  rw [hrun, Option.map_some, Option.some_inj] at hends
  simp only [Prod.mk.injEq] at hends
  obtain ⟨hline, hsize, hacc⟩ := hends
  refine ⟨hline, hsize, hacc, ?_⟩
  rw [(hall n).2 hline hsize, hacc]
  rfl

/-! ## Bringing the rest home -/

/-- What is under way from `n`: a queued byte has to be fetched and read, one on the line only read. -/
def Link.pending (l : Link len) (n : Node) : ℕ :=
  2 * (l.node n).h.txSize.toNat + (l.line n).length

/-- A call that sends nothing. -/
def LinkCall.Forwards : LinkCall → Prop
  | .tx _ (.sendPacket _) => False
  | _ => True

omit [DecidableEq β] in
/-- Nothing is under way. -/
theorem Link.pending_zero {n : Node} (hpos : 0 ≤ (l.node n).h.txSize) (h : l.pending n = 0) :
    l.line n = [] ∧ (l.node n).h.txSize = 0 := by
  rw [Link.pending] at h
  exact ⟨List.eq_nil_of_length_eq_zero (by omega), by omega⟩

/-- **A fetch** brings a byte one step nearer. -/
theorem pending_fetch {n : Node} {q : RingQueue UInt8 packetSizeMax} (hq : RingAt (l.node n).h q)
    (hpos : 0 < q.size) : ∃ l' o, linkStep stray l (.tx n .txByte) = some (l', o) ∧
      l'.pending n + 1 = l.pending n ∧ l'.pending n.peer = l.pending n.peer := by
  obtain ⟨g, he, hg⟩ := txByte_ring hq hpos
  have hs : txStep (l.node n).h .txByte = some (g, .byte none (some (q.cells (q.slot 0)))) := by
    rw [txStep, he, txHead_ring hq hpos]
    rfl
  have hne : n.peer ≠ n := by cases n <;> decide
  have hsize : (q.pop hpos).size = q.size - 1 := rfl
  refine ⟨_, _, by rw [linkStep, hs]; rfl, ?_, ?_⟩
  · simp only [Link.pending, Function.update_self, hg.size, hq.size, hsize, TxReturn.written?,
      TxReturn.returned?, Option.map_some, Option.toList_some, List.length_append,
      List.length_singleton]
    omega
  · simp only [Link.pending, Function.update_of_ne hne]

/-- **A read** brings a byte home. -/
theorem pending_read {n : Node} {c : UInt8} {cs : List UInt8} {s : RxState len} {r : RxReturn len}
    (hline : l.line n = c :: cs) (hs : rxByte (l.node n.peer) c = some (s, r)) :
    ∃ l' o, linkStep stray l (.read n.peer) = some (l', o) ∧
      l'.pending n + 1 = l.pending n ∧ l'.pending n.peer = l.pending n.peer := by
  have hne : n ≠ n.peer := by cases n <;> decide
  have hsize : s.h.txSize = (l.node n.peer).h.txSize := by
    have hw := rxByte_withTx (l.node n.peer) (l.node n.peer).h c
    rw [rxState_withTx_self, hs] at hw
    exact congrArg (fun q => q.1.h.txSize) (Option.some_inj.mp hw)
  have hpeer : l.line n.peer.peer = c :: cs := by rw [Node.peer_peer]; exact hline
  refine ⟨_, _, linkStep_read hpeer hs, ?_, ?_⟩
  · simp only [Link.pending, Node.peer_peer, Function.update_self, Function.update_of_ne hne, hline,
      List.length_cons]
    omega
  · simp only [Link.pending, Node.peer_peer, Function.update_self,
      Function.update_of_ne (Ne.symm hne), hsize]

/-- As long as something is under way, a call that sends nothing brings it nearer. -/
theorem Traced.forward (h : Traced l₀ os l) (hfresh : l₀.Fresh)
    (htakes : ∀ n, ∀ p ∈ acceptedBy n os, l₀.Accords opOf n p) {n : Node} (hn : 0 < l.pending n) :
    ∃ call l' o, call.Forwards ∧ linkStep stray l call = some (l', o) ∧
      l'.pending n + 1 = l.pending n ∧ l'.pending n.peer = l.pending n.peer := by
  obtain ⟨q, hq⟩ := h.ring hfresh n
  rcases Nat.eq_zero_or_pos q.size with h0 | hpos
  · have hsize : (l.node n).h.txSize.toNat = 0 := by
      rw [hq.size, h0]
      rfl
    rw [Link.pending, hsize] at hn
    obtain ⟨c, cs, hline⟩ := List.exists_cons_of_length_pos (l := l.line n) (by omega)
    obtain ⟨l₁, o₁, hs⟩ : ∃ l₁ o₁, linkStep stray l (.read n.peer) = some (l₁, o₁) :=
      h.defined hfresh htakes (.read n.peer)
    have hpeer : l.line n.peer.peer = c :: cs := by rw [Node.peer_peer]; exact hline
    rw [linkStep, hpeer] at hs
    obtain ⟨⟨s, r⟩, hr, -⟩ := Option.map_eq_some_iff.mp hs
    obtain ⟨l', o, he, hp⟩ := pending_read hline hr
    exact ⟨.read n.peer, l', o, trivial, he, hp⟩
  · obtain ⟨l', o, he, hp⟩ := pending_fetch hq hpos
    exact ⟨.tx n .txByte, l', o, trivial, he, hp⟩

/-- **Draining**: one call for each byte on the line and two for each in a ring. -/
theorem Traced.drain (hstray : ∀ n, FindsHead (stray n)) (h : Traced l₀ os l) (hfresh : l₀.Fresh)
    (htakes : ∀ n, ∀ p ∈ acceptedBy n os, l₀.Accords opOf n p) :
    ∃ more l' os', more.length = l.pending .host + l.pending .robot ∧
      (∀ call ∈ more, call.Forwards) ∧ run (linkStep stray) l more = some (l', os') ∧
      Traced l₀ (os ++ os') l' ∧ ∀ n, acceptedBy n (os ++ os') = acceptedBy n os ∧
        l'.pending n = 0 := by
  obtain ⟨k, hk⟩ : ∃ k, k = l.pending .host + l.pending .robot := ⟨_, rfl⟩
  rw [← hk]
  induction k generalizing l os with
  | zero =>
    refine ⟨[], l, [], rfl, fun call hc => absurd hc List.not_mem_nil, rfl, ?_, fun n => ?_⟩
    · rw [List.append_nil]
      exact h
    · rw [List.append_nil]
      refine ⟨rfl, ?_⟩
      cases n <;> omega
  | succ k ih =>
    obtain ⟨n, hn⟩ : ∃ n, 0 < l.pending n := by
      rcases Nat.eq_zero_or_pos (l.pending .host) with h0 | hpos
      · exact ⟨.robot, by omega⟩
      · exact ⟨.host, hpos⟩
    obtain ⟨call, l₁, o, hf, hs, h1, h2⟩ : ∃ call l₁ o, call.Forwards ∧
        linkStep stray l call = some (l₁, o) ∧ l₁.pending n + 1 = l.pending n ∧
        l₁.pending n.peer = l.pending n.peer := h.forward hfresh htakes hn
    have hsum : k = l₁.pending .host + l₁.pending .robot := by
      cases n <;> simp only [Node.peer] at h1 h2 <;> omega
    have hacc : ∀ m, acceptedBy m (os ++ [o]) = acceptedBy m os := by
      intro m
      obtain ⟨ps, he, hps⟩ := acceptedBy_step os hs m
      cases ps with
      | nil => rw [he, List.append_nil]
      | cons p ps =>
        rw [hps p List.mem_cons_self] at hf
        exact absurd hf id
    obtain ⟨more, l', os', hlen, hall, hrun, htr, hend⟩ :=
      ih (h.step hstray hs) (fun m p hp => htakes m p (hacc m ▸ hp)) hsum
    refine ⟨call :: more, l', o :: os', by rw [List.length_cons, hlen], ?_, ?_, ?_, fun m => ?_⟩
    · intro call' hc
      rcases List.mem_cons.mp hc with rfl | hc
      · exact hf
      · exact hall call' hc
    · rw [run_cons_of hs, hrun]
      rfl
    · rw [← List.singleton_append, ← List.append_assoc]
      exact htr
    · rw [← List.singleton_append, ← List.append_assoc]
      exact ⟨(hend m).1.trans (hacc m), (hend m).2⟩

/-- **Nothing is lost**: wherever a run has led, so many fetches and reads bring every accepted
packet to its peer. -/
theorem link_drains (hstray : ∀ n, FindsHead (stray n)) (hfresh : l₀.Fresh)
    (htakes : ∀ n p, .tx n (.sendPacket p) ∈ calls → l₀.Accords opOf n p)
    (hrun : run (linkStep stray) l₀ calls = some (l, os)) :
    ∃ more l' os', more.length = l.pending .host + l.pending .robot ∧
      (∀ call ∈ more, call.Forwards) ∧ run (linkStep stray) l more = some (l', os') ∧
      ∀ n, deliveredAt n.peer (os ++ os') = expected (opOf n.peer) (acceptedBy n os) := by
  have hacc : ∀ n, ∀ p ∈ acceptedBy n os, l₀.Accords opOf n p :=
    fun n p hp => htakes n p (acceptedBy_sent hrun hp)
  obtain ⟨more, l', os', hlen, hall, hrun', htr, hend⟩ :=
    (link_traced hstray hrun).drain hstray hfresh hacc
  refine ⟨more, l', os', hlen, hall, hrun', fun n => ?_⟩
  obtain ⟨hsame, hzero⟩ := hend n
  obtain ⟨q, hq⟩ := htr.ring hfresh n
  obtain ⟨hline, hsize⟩ := Link.pending_zero (by rw [hq.size]; omega) hzero
  have hdel := htr.arrived hfresh (fun p hp => hacc n p (hsame ▸ hp)) hline hsize
  rwa [hsame] at hdel

/-- From where both have only sent. -/
theorem link_drains_crossing :
    ∃ l os, run (linkStep leftByte) twoListeners (crossing.take 2) = some (l, os) ∧
      ∃ more l' os', more.length = 44 ∧ (∀ call ∈ more, call.Forwards) ∧
        run (linkStep leftByte) l more = some (l', os') ∧
        ∀ n : Node, deliveredAt n.peer (os ++ os') = [⟨bufferedOp 2 8, framedPacket.content⟩] := by
  have htakes : ∀ n p, .tx n (.sendPacket p) ∈ crossing.take 2 →
      twoListeners.Accords (fun _ _ => bufferedOp 2 8) n p :=
    fun n p hp => crossing_accords n p (List.mem_of_mem_take hp)
  obtain ⟨l, os, hrun⟩ := linkRun_total leftByte_findsHead twoListeners_fresh htakes
  have hstart : ∀ n, (run (linkStep leftByte) twoListeners (crossing.take 2)).map (fun r =>
      (r.1.pending n, acceptedBy n r.2)) = some (22, [framedPacket]) := by
    intro n
    cases n <;> decide +kernel
  simp only [hrun, Option.map_some, Option.some_inj, Prod.mk.injEq] at hstart
  obtain ⟨more, l', os', hlen, hall, hrun', hdel⟩ :=
    link_drains leftByte_findsHead twoListeners_fresh htakes hrun
  rw [(hstart .host).1, (hstart .robot).1] at hlen
  refine ⟨l, os, hrun, more, l', os', hlen, hall, hrun', fun n => ?_⟩
  have hacc : acceptedBy n os = [framedPacket] := (hstart n).2
  rw [hdel n, hacc]
  rfl

end Directions

end Ulisse
