import Ulisse.Client.Ack

/-!
# Client.Setup — what the set-up owes to the heap

`UlisseClient_init` takes its block from `malloc` and never calls `PacketHandler_initialize`.  So it
establishes what the later calls rely on exactly if the block happens to hold an initialized handler
with an empty table (`init_setsUp_iff`).  From there on the rest of the block does not matter:
two clients that differ in it are `Alike`, and answer alike until a packet is read that has not
been received.
-/

namespace Ulisse

open BlockMem Run Framing

/-! ## Calls -/

/-- The calls of a later run: `UlisseClient_sendPacket`, `_readPacket` and `UlisseClient_get`; `read`
answers those that read the port. -/
inductive ClientCall where
  | sendPacket (p : Packet) (timeout : ℤ) (answers : List ReadAnswer)
  | readPacket (answers : List ReadAnswer)
  | get (type : UInt8)

/-- What a call shows: its status, the packet with its seq, the values written, the packets
completed, the answers of `read` that it leaves, the bytes copied. -/
inductive ClientReturn where
  | sent (status : PacketStatus) (p : Packet) (written : List (Option UInt8))
    (completed : List (Delivery Obj.size)) (rest : List ReadAnswer)
  | read (completed : List (Delivery Obj.size)) (rest : List ReadAnswer)
  | got (status : PacketStatus) (bytes : List UInt8)

/-- The packets that were completed in the call. -/
def ClientReturn.completed : ClientReturn → List (Delivery Obj.size)
  | .sent _ _ _ completed _ => completed
  | .read completed _ => completed
  | .got _ _ => []

/-- One call; `none` if it does not return. -/
def clientStep (cl : UlisseClient) : ClientCall → Option (UlisseClient × ClientReturn)
  | .sendPacket p timeout answers =>
    (cl.sendPacket p timeout answers).toOption.map fun ret =>
      (ret.client, .sent ret.status ret.packet ret.written (deliveries ret.received) ret.rest)
  | .readPacket answers =>
    (Client.readPacket cl answers).toOption.map fun x => (x.1, .read (deliveries x.2.1) x.2.2)
  | .get type => some (cl, .got (cl.get type).1 (cl.get type).2)

/-- The types of the packets completed in a list of packets. -/
def types (ds : List (Delivery Obj.size)) : List UInt8 := ds.map fun d => d.op.type

/-- The types received in a run. -/
def seen (os : List ClientReturn) : List UInt8 := os.flatMap fun o => types o.completed

/-- The call does not read a packet that was not yet received. -/
def ReadsSeen (_ : List ClientCall) (os : List ClientReturn) (_ : UlisseClient)
    (call : ClientCall) : Prop :=
  ∀ t, call = .get t → (destination t).isSome → t ∈ seen os

/-! ## Clients that differ in what the heap held -/

/-- `cl₁` and `cl₂` are at the same point, and agree in the packets of the types `S`. -/
structure Alike (heap : Fin 4 → ℕ) (S : List UInt8) (ph : ClientPhase)
    (q₁ q₂ : RingQueue UInt8 packetSizeMax) (cl₁ cl₂ : UlisseClient) : Prop where
  left : ClientAt heap cl₁ ph q₁
  right : ClientAt heap cl₂ ph q₂
  queue : q₁.toList = q₂.toList
  globalSeq : cl₁.globalSeq = cl₂.globalSeq
  response : ∀ type seq, Client.ResponseMatches cl₁ type seq ↔ Client.ResponseMatches cl₂ type seq
  packets : ∀ t ∈ S, ∀ dest, destination t = some dest → cl₁.mem.cells dest = cl₂.mem.cells dest

section Alike

variable {heap : Fin 4 → ℕ} {S : List UInt8} {ph : ClientPhase}
  {q₁ q₂ : RingQueue UInt8 packetSizeMax} {cl₁ cl₂ cl₁' cl₂' : UlisseClient} {d : Completed}

theorem types_nil : types [] = [] := rfl

theorem types_append (ds es : List (Delivery Obj.size)) : types (ds ++ es) = types ds ++ types es :=
  List.map_append

/-- The same packet makes clients agree in its type. -/
theorem Alike.receive (h : Alike heap S ph q₁ q₂ cl₁ cl₂) (hinst : Installed heap d)
    (hrec₁ : Receives cl₁ cl₁' d) (hrec₂ : Receives cl₂ cl₂' d) (hcl₁ : ClientAt heap cl₁' .hunt q₁)
    (hcl₂ : ClientAt heap cl₂' .hunt q₂) :
    Alike heap (S ++ [d.1.type]) .hunt q₁ q₂ cl₁' cl₂' := by
  obtain ⟨op, f⟩ := d
  refine ⟨hcl₁, hcl₂, h.queue, ?_, fun type seq => ?_, fun t ht dest hd => ?_⟩
  · rw [hrec₁.globalSeq, hrec₂.globalSeq, h.globalSeq]
  · rw [hrec₁.matches_iff hinst, hrec₂.matches_iff hinst, h.response]
  · obtain ⟨-, -, hne, -⟩ := destination_some hd
    rw [hrec₁.mem _ hne, hrec₂.mem _ hne, copied, copied]
    by_cases hargs : op.onReciveArgs = some ⟨dest, 0⟩
    · rw [if_pos hargs, if_pos hargs]
    · rw [if_neg hargs, if_neg hargs]
      rcases List.mem_append.mp ht with ht | ht
      · exact h.packets t ht dest hd
      · -- the packet's own type is copied
        rw [List.mem_singleton.mp ht] at hd
        obtain ⟨addr, dest', hd', hop⟩ := lookup_client hinst.look
        have hop' : op = Client.packetOp addr dest' f.tag (UInt8.ofNat dest'.size) := hop
        rw [hop'] at hd hargs
        obtain rfl : dest' = dest := Option.some_inj.mp (hd'.symm.trans hd)
        exact absurd rfl hargs

/-- **`_readPacket`** is blocked for both, or completes the same packet for both. -/
theorem Alike.read (h : Alike heap S ph q₁ q₂ cl₁ cl₂) (answers : List ReadAnswer) :
    (Client.readPacket cl₁ answers = .error .blocked ∧
      Client.readPacket cl₂ answers = .error .blocked) ∨
    ∃ cl₁' cl₂' rs₁ rs₂ rest, Client.readPacket cl₁ answers = .ok (cl₁', rs₁, rest) ∧
      Client.readPacket cl₂ answers = .ok (cl₂', rs₂, rest) ∧ deliveries rs₁ = deliveries rs₂ ∧
      Alike heap (S ++ types (deliveries rs₁)) .hunt q₁ q₂ cl₁' cl₂' := by
  cases hn : nextPacket heap ph answers with
  | none => exact Or.inl ⟨readPacket_blocked h.left hn, readPacket_blocked h.right hn⟩
  | some x =>
    obtain ⟨d, rest⟩ := x
    obtain ⟨cl₁', rs₁, hr₁, hcl₁, hdel₁, hinst, hrec₁⟩ := readPacket_ok h.left hn
    obtain ⟨cl₂', rs₂, hr₂, hcl₂, hdel₂, -, hrec₂⟩ := readPacket_ok h.right hn
    refine Or.inr ⟨cl₁', cl₂', rs₁, rs₂, rest, hr₁, hr₂, hdel₁.trans hdel₂.symm, ?_⟩
    rw [hdel₁]
    exact h.receive hinst hrec₁ hrec₂ hcl₁ hcl₂

/-- **Waiting** takes in the same packets. -/
theorem Alike.await (h : Alike heap S ph q₁ q₂ cl₁ cl₂) (type : UInt8) (seq : UInt16) (n : ℕ)
    (answers : List ReadAnswer) :
    (Client.awaitResponse type seq n cl₁ answers = .error .blocked ∧
      Client.awaitResponse type seq n cl₂ answers = .error .blocked) ∨
    ∃ status cl₁' cl₂' rs₁ rs₂ rest ph',
      Client.awaitResponse type seq n cl₁ answers = .ok (status, cl₁', rs₁, rest) ∧
      Client.awaitResponse type seq n cl₂ answers = .ok (status, cl₂', rs₂, rest) ∧
      deliveries rs₁ = deliveries rs₂ ∧
      Alike heap (S ++ types (deliveries rs₁)) ph' q₁ q₂ cl₁' cl₂' := by
  induction n generalizing S ph cl₁ cl₂ answers with
  | zero =>
    refine Or.inr ⟨.timeout, cl₁, cl₂, [], [], answers, ph, rfl, rfl, rfl, ?_⟩
    rw [deliveries_nil, types_nil, List.append_nil]
    exact h
  | succ n ih =>
    rcases h.read answers with ⟨h1, h2⟩ | ⟨cl₁', cl₂', rs₁, rs₂, rest, h1, h2, hdel, h'⟩
    · rw [Client.awaitResponse, Client.awaitResponse, h1, h2]
      exact Or.inl ⟨rfl, rfl⟩
    · rw [awaitResponse_succ h1, awaitResponse_succ h2]
      by_cases hm : Client.ResponseMatches cl₁' type seq
      · rw [if_pos hm, if_pos ((h'.response type seq).mp hm)]
        exact Or.inr ⟨_, cl₁', cl₂', rs₁, rs₂, rest, .hunt, rfl, rfl, hdel, h'⟩
      · rw [if_neg hm, if_neg fun hm' => hm ((h'.response type seq).mpr hm')]
        rcases ih h' rest with ⟨h3, h4⟩ |
          ⟨status, cl₁'', cl₂'', rs₁', rs₂', rest', ph', h3, h4, hdel', h''⟩
        · rw [h3, h4]
          exact Or.inl ⟨rfl, rfl⟩
        · rw [h3, h4]
          refine Or.inr ⟨status, cl₁'', cl₂'', rs₁ ++ rs₁', rs₂ ++ rs₂', rest', ph', rfl, rfl, ?_,
            ?_⟩
          · rw [deliveries_append, deliveries_append, hdel, hdel']
          · rw [deliveries_append, types_append, ← List.append_assoc]
            exact h''

/-- Nothing received, the same queued. -/
theorem Alike.moved {q₁' q₂' : RingQueue UInt8 packetSizeMax} (h : Alike heap S ph q₁ q₂ cl₁ cl₂)
    (hcl₁ : ClientAt heap cl₁' ph q₁') (hcl₂ : ClientAt heap cl₂' ph q₂')
    (hqueue : q₁'.toList = q₂'.toList) (hmem₁ : cl₁'.mem = cl₁.mem) (hmem₂ : cl₂'.mem = cl₂.mem)
    (hseq : cl₁'.globalSeq = cl₂'.globalSeq) : Alike heap S ph q₁' q₂' cl₁' cl₂' := by
  refine ⟨hcl₁, hcl₂, hqueue, hseq, fun type seq => ?_, fun t ht dest hd => ?_⟩
  · have hresponse := h.response type seq
    unfold Client.ResponseMatches at hresponse ⊢
    rw [hmem₁, hmem₂]
    exact hresponse
  · rw [hmem₁, hmem₂]
    exact h.packets t ht dest hd

/-- **`_sendPacket`** has the same status, and queues the same bytes. -/
theorem Alike.send (h : Alike heap S ph q₁ q₂ cl₁ cl₂) (p : Packet) :
    ∃ status cl₁' cl₂' p' q₁' q₂', Client.sendPacket cl₁ p = some (status, cl₁', p') ∧
      Client.sendPacket cl₂ p = some (status, cl₂', p') ∧ Alike heap S ph q₁' q₂' cl₁' cl₂' := by
  have hseq : cl₁.globalSeq + 1 = cl₂.globalSeq + 1 := by rw [h.globalSeq]
  have hcount : Alike heap S ph q₁ q₂ { cl₁ with globalSeq := cl₁.globalSeq + 1 }
      { cl₂ with globalSeq := cl₂.globalSeq + 1 } :=
    h.moved (h.left.tx (TxChange.refl _) h.left.ring rfl rfl)
      (h.right.tx (TxChange.refl _) h.right.ring rfl rfl) h.queue rfl rfl hseq
  have hsize : q₁.size = q₂.size := by
    rw [← RingQueue.length_toList, h.queue, RingQueue.length_toList]
  unfold Client.sendPacket
  simp only [h.left.sizes, h.right.sizes, ← hseq] at hcount ⊢
  split_ifs with ht h0 hbad
  · exact ⟨_, _, _, _, q₁, q₂, rfl, rfl, hcount⟩
  · exact ⟨_, _, _, _, q₁, q₂, rfl, rfl, hcount⟩
  · -- both queues have the same room
    rcases sendPacket_ring h.left.ring (p.setSeq (cl₁.globalSeq + 1)) with
      ⟨hfull, hs₁⟩ | ⟨hroom, h₁, q₁', hs₁, hq₁, hl₁⟩ <;>
    rcases sendPacket_ring h.right.ring (p.setSeq (cl₁.globalSeq + 1)) with
      ⟨hfull', hs₂⟩ | ⟨hroom', h₂, q₂', hs₂, hq₂, hl₂⟩
    · exact ⟨_, _, _, _, q₁, q₂, by rw [hs₁]; rfl, by rw [hs₂]; rfl, hcount⟩
    · omega
    · omega
    · refine ⟨.success, { cl₁ with globalSeq := cl₁.globalSeq + 1, packetHandler := h₁ },
        { cl₂ with globalSeq := cl₁.globalSeq + 1, packetHandler := h₂ }, _, q₁', q₂',
        by rw [hs₁, ← h.left.sizes]; rfl, by rw [hs₂, ← h.right.sizes]; rfl, ?_⟩
      refine hcount.moved (hcount.left.tx (sendPacket_change hs₁) hq₁ rfl h.left.sizes)
        (hcount.right.tx (sendPacket_change hs₂) hq₂ rfl h.right.sizes) ?_ rfl rfl rfl
      rw [hl₁, hl₂, h.queue]
  · exact ⟨_, _, _, _, q₁, q₂, rfl, rfl, hcount⟩

/-- **`_flushBuffer`** writes equally much. -/
theorem Alike.flush (h : Alike heap S ph q₁ q₂ cl₁ cl₂) :
    ∃ cl₁' cl₂' written q₁' q₂', Client.flushBuffer cl₁ = some (cl₁', written) ∧
      Client.flushBuffer cl₂ = some (cl₂', written) ∧ Alike heap S ph q₁' q₂' cl₁' cl₂' := by
  have hsize : q₁.size = q₂.size := by
    rw [← RingQueue.length_toList, h.queue, RingQueue.length_toList]
  obtain ⟨cl₁', q₁', hf₁, hcl₁, hnil₁, hmem₁, hseq₁⟩ := flushBuffer_ok h.left
  obtain ⟨cl₂', q₂', hf₂, hcl₂, hnil₂, hmem₂, hseq₂⟩ := flushBuffer_ok h.right
  refine ⟨cl₁', cl₂', _, q₁', q₂', hf₁, by rw [hf₂, hsize], ?_⟩
  refine h.moved hcl₁ hcl₂ (hnil₁.trans hnil₂.symm) hmem₁ hmem₂ ?_
  rw [hseq₁, hseq₂, h.globalSeq]

/-- **`UlisseClient_get`** of a packet received copies the same. -/
theorem Alike.get (h : Alike heap S ph q₁ q₂ cl₁ cl₂) {t : UInt8}
    (ht : (destination t).isSome → t ∈ S) : cl₁.get t = cl₂.get t := by
  have htable₁ : cl₁.packetHandler.operations = clientTable heap := h.left.rx.table
  have htable₂ : cl₂.packetHandler.operations = clientTable heap := h.right.rx.table
  unfold UlisseClient.get
  rw [htable₁, htable₂]
  by_cases hlt : t.toNat < packetTypeMax
  · rw [dif_pos hlt, dif_pos hlt]
    cases ho : clientTable heap ⟨t.toNat, hlt⟩ with
    | none => rfl
    | some op =>
      have hlook : lookup (clientTable heap) t = some op := by rw [lookup_of_lt _ hlt, ho]
      obtain ⟨addr, dest, hd, rfl⟩ := lookup_client hlook
      have hcells := h.packets t (ht (by rw [hd]; rfl)) dest hd
      show (PacketStatus.success, List.take _ (view cl₁.mem ⟨dest, 0⟩)) =
        (PacketStatus.success, List.take _ (view cl₂.mem ⟨dest, 0⟩))
      rw [view, view, hcells]
  · rw [dif_neg hlt, dif_neg hlt]

/-- **`UlisseClient_sendPacket`** is blocked for both, or ends alike. -/
theorem Alike.sendPacket (h : Alike heap S ph q₁ q₂ cl₁ cl₂) (p : Packet) (timeout : ℤ)
    (answers : List ReadAnswer) :
    (cl₁.sendPacket p timeout answers = .error .blocked ∧
      cl₂.sendPacket p timeout answers = .error .blocked) ∨
    ∃ status cl₁' cl₂' p' written rs₁ rs₂ rest ph' q₁' q₂',
      cl₁.sendPacket p timeout answers = .ok ⟨status, cl₁', p', written, rs₁, rest⟩ ∧
      cl₂.sendPacket p timeout answers = .ok ⟨status, cl₂', p', written, rs₂, rest⟩ ∧
      deliveries rs₁ = deliveries rs₂ ∧
      Alike heap (S ++ types (deliveries rs₁)) ph' q₁' q₂' cl₁' cl₂' := by
  obtain ⟨status, cl₁', cl₂', p', q₁', q₂', hs₁, hs₂, h₁⟩ := h.send p
  -- nothing is read if the call ends here
  have hquiet : Alike heap (S ++ types (deliveries [])) ph q₁' q₂' cl₁' cl₂' := by
    rw [deliveries_nil, types_nil, List.append_nil]
    exact h₁
  unfold UlisseClient.sendPacket
  rw [hs₁, hs₂]
  by_cases ht : timeout = 0
  · simp only [if_pos ht]
    exact Or.inr ⟨_, _, _, _, _, _, _, _, ph, q₁', q₂', rfl, rfl, rfl, hquiet⟩
  by_cases hok : status ≠ .success
  · simp only [if_neg ht, if_pos hok]
    exact Or.inr ⟨_, _, _, _, _, _, _, _, ph, q₁', q₂', rfl, rfl, rfl, hquiet⟩
  · obtain ⟨cl₁'', cl₂'', written, q₁'', q₂'', hf₁, hf₂, h₂⟩ := h₁.flush
    simp only [if_neg ht, if_neg hok, hf₁, hf₂]
    rcases h₂.await p'.type p'.seq timeout.toNat answers with
      ⟨hw₁, hw₂⟩ | ⟨status', c₁, c₂, rs₁, rs₂, rest, ph', hw₁, hw₂, hdel, h₃⟩
    · rw [hw₁, hw₂]
      exact Or.inl ⟨rfl, rfl⟩
    · rw [hw₁, hw₂]
      exact Or.inr ⟨status', c₁, c₂, p', written, rs₁, rs₂, rest, ph', q₁'', q₂'', rfl, rfl, hdel,
        h₃⟩

/-- **One call** shows the same, and leaves clients that agree in what it received. -/
theorem Alike.call (h : Alike heap S ph q₁ q₂ cl₁ cl₂) (call : ClientCall)
    (hget : ∀ t, call = .get t → (destination t).isSome → t ∈ S) :
    (clientStep cl₁ call = none ∧ clientStep cl₂ call = none) ∨
    ∃ cl₁' cl₂' o ph' q₁' q₂', clientStep cl₁ call = some (cl₁', o) ∧
      clientStep cl₂ call = some (cl₂', o) ∧
      Alike heap (S ++ types o.completed) ph' q₁' q₂' cl₁' cl₂' := by
  cases call with
  | sendPacket p timeout answers =>
    simp only [clientStep]
    rcases h.sendPacket p timeout answers with ⟨hs₁, hs₂⟩ |
      ⟨status, cl₁', cl₂', p', written, rs₁, rs₂, rest, ph', q₁', q₂', hs₁, hs₂, hdel, h'⟩
    · rw [hs₁, hs₂]
      exact Or.inl ⟨rfl, rfl⟩
    · rw [hs₁, hs₂]
      refine Or.inr ⟨cl₁', cl₂', .sent status p' written (deliveries rs₁) rest, ph', q₁', q₂', rfl,
        ?_, h'⟩
      rw [hdel]
      rfl
  | readPacket answers =>
    simp only [clientStep]
    rcases h.read answers with ⟨hr₁, hr₂⟩ | ⟨cl₁', cl₂', rs₁, rs₂, rest, hr₁, hr₂, hdel, h'⟩
    · rw [hr₁, hr₂]
      exact Or.inl ⟨rfl, rfl⟩
    · rw [hr₁, hr₂]
      refine Or.inr ⟨cl₁', cl₂', .read (deliveries rs₁) rest, .hunt, q₁, q₂, rfl, ?_, h'⟩
      rw [hdel]
      rfl
  | get t =>
    have hsame : Alike heap (S ++ types []) ph q₁ q₂ cl₁ cl₂ := by
      rw [types_nil, List.append_nil]
      exact h
    refine Or.inr ⟨cl₁, cl₂, .got (cl₁.get t).1 (cl₁.get t).2, ph, q₁, q₂, rfl, ?_, hsame⟩
    rw [h.get (hget t rfl)]
    rfl

end Alike

/-! ## The client that is set up -/

theorem seen_append (os : List ClientReturn) (o : ClientReturn) :
    seen (os ++ [o]) = seen os ++ types o.completed := by
  rw [seen, List.flatMap_append, List.flatMap_singleton]
  rfl

/-- All of the response is set but its result. -/
theorem initResponse_response (m : Mem UInt8 Obj.size) :
    ∃ x, (Client.initResponse m).cells .response = [0, 8, 0, 0, 16, 0, 0, x] := by
  have hlen : (m.cells .response).length = 8 := m.length_cells .response
  obtain ⟨x0, x1, x2, x3, x4, x5, x6, x7, hcells⟩ :
      ∃ x0 x1 x2 x3 x4 x5 x6 x7, m.cells .response = [x0, x1, x2, x3, x4, x5, x6, x7] := by
    match hm : m.cells .response, hlen with
    | [x0, x1, x2, x3, x4, x5, x6, x7], _ => exact ⟨x0, x1, x2, x3, x4, x5, x6, x7, rfl⟩
  refine ⟨x7, ?_⟩
  simp only [Client.initResponse, write, Function.update_self, hcells]
  rfl

section SetUp

variable {opened attribs : ℤ} {heap : Fin 4 → ℕ} {block block' cl cl' : UlisseClient}

/-- Clients set up in fresh blocks differ in no packet, as none was received. -/
theorem setUp_alike (hb : FreshHandler block.packetHandler)
    (hb' : FreshHandler block'.packetHandler) :
    ∃ q q', Alike heap [] .hunt q q' (block.setUp opened heap) (block'.setUp opened heap) := by
  obtain ⟨q, hq, hnil⟩ := setUp_at heap opened hb
  obtain ⟨q', hq', hnil'⟩ := setUp_at heap opened hb'
  refine ⟨q, q', hq, hq', hnil.trans hnil'.symm, rfl, fun type seq => ?_,
    fun t ht => absurd ht List.not_mem_nil⟩
  obtain ⟨x, hx⟩ := initResponse_response block.mem
  obtain ⟨x', hx'⟩ := initResponse_response block'.mem
  unfold Client.ResponseMatches
  rw [show (block.setUp opened heap).mem.cells .response = _ from hx,
    show (block'.setUp opened heap).mem.cells .response = _ from hx']
  rfl

/-- `UlisseClient_init` returns `cl` from `block`, hunting, with an empty transmit ring and exactly
the four operations. -/
structure Establishes (opened attribs : ℤ) (heap : Fin 4 → ℕ) (block cl : UlisseClient) :
    Prop where
  client : UlisseClient.init opened attribs block heap = .client cl
  rxFn : cl.packetHandler.rxFn = .rxAA
  txStart : cl.packetHandler.txStart = 0
  txEnd : cl.packetHandler.txEnd = 0
  txSize : cl.packetHandler.txSize = 0
  operations : ∀ t, cl.packetHandler.operations t = clientTable heap t

/-- **What the set-up owes**: the invariant, and later runs that do not show which block it was. -/
def SetsUp (opened attribs : ℤ) (heap : Fin 4 → ℕ) (block : UlisseClient) : Prop :=
  ∃ cl, Establishes opened attribs heap block cl ∧
    ∀ block' cl', Establishes opened attribs heap block' cl' →
      ∀ calls, Along clientStep ReadsSeen cl calls →
        (run clientStep cl calls).map Prod.snd = (run clientStep cl' calls).map Prod.snd

/-- The invariant is established exactly in a fresh block. -/
theorem establishes_iff (ho : 0 < opened) (ha : 0 ≤ attribs) :
    Establishes opened attribs heap block cl ↔
      FreshHandler block.packetHandler ∧ cl = block.setUp opened heap := by
  constructor
  · rintro ⟨hinit, h1, h2, h3, h4, htable⟩
    obtain ⟨hnull, rfl⟩ := (init_client_iff ho ha).mp hinit
    refine ⟨⟨h1, h2, h3, h4, fun t => ?_⟩, rfl⟩
    cases hc : clientTable heap t with
    | some op => exact hnull t (by rw [hc]; rfl)
    | none =>
      have ht : (clientTable heap t).or (block.packetHandler.operations t) = clientTable heap t :=
        htable t
      rw [hc, Option.none_or] at ht
      exact ht
  · rintro ⟨hb, rfl⟩
    exact ⟨(init_client_iff ho ha).mpr ⟨fun t _ => hb.operations t, rfl⟩, hb.rxFn, hb.txStart,
      hb.txEnd, hb.txSize, setUp_operations hb⟩

/-- **Later runs**: alike clients answer alike, as long as only received packets are read. -/
theorem Alike.run_eq {q q' : RingQueue UInt8 packetSizeMax} (h : Alike heap [] .hunt q q' cl cl')
    {calls : List ClientCall} (hP : Along clientStep ReadsSeen cl calls) :
    (run clientStep cl calls).map Prod.snd = (run clientStep cl' calls).map Prod.snd := by
  refine run_agree (J := fun os cl cl' => ∃ ph q q', Alike heap (seen os) ph q q' cl cl')
    ⟨.hunt, q, q', h⟩ ?_ hP
  rintro calls os cl cl' call ⟨ph, q, q', h⟩ hget
  rcases h.call call hget with hnone | ⟨cl₁, cl₁', o, ph', q₁, q₁', hs, hs', h'⟩
  · exact Or.inl hnone
  · refine Or.inr ⟨cl₁, cl₁', o, hs, hs', ph', q₁, q₁', ?_⟩
    rw [seen_append]
    exact h'

/-- **The set-up does what it owes exactly in a block that already holds an initialized handler with
an empty table.** -/
theorem init_setsUp_iff (ho : 0 < opened) (ha : 0 ≤ attribs) :
    SetsUp opened attribs heap block ↔ FreshHandler block.packetHandler := by
  constructor
  · rintro ⟨cl, hest, -⟩
    exact ((establishes_iff ho ha).mp hest).1
  · intro hb
    refine ⟨_, (establishes_iff ho ha).mpr ⟨hb, rfl⟩, ?_⟩
    intro block' cl' hest' calls hP
    obtain ⟨hb', rfl⟩ := (establishes_iff ho ha).mp hest'
    obtain ⟨q, q', halike⟩ := setUp_alike hb hb'
    exact halike.run_eq hP

end SetUp

theorem init_setsUp_initialized :
    SetsUp 3 0 (fun i => i.val) { zeroBlock with packetHandler := zeroHandler.initialized } :=
  (init_setsUp_iff (by decide) (by decide)).mpr ⟨rfl, rfl, rfl, rfl, fun _ => rfl⟩

/-- In a block of zeros no receive function is set, and the first byte received is undefined. -/
theorem init_setsUp_counterexample :
    (∃ cl, UlisseClient.init 3 0 zeroBlock (fun i => i.val) = .client cl ∧
      ∀ c, rxByte cl.rx c = none) ∧
    ¬ SetsUp 3 0 (fun i => i.val) zeroBlock := by
  refine ⟨⟨zeroBlock.setUp 3 fun i => i.val, ?_, fun c => rfl⟩, ?_⟩
  · exact (init_client_iff (by decide) (by decide)).mpr ⟨fun _ _ => rfl, rfl⟩
  · rintro ⟨cl, hest, -⟩
    obtain ⟨-, rfl⟩ := (init_client_iff (by decide) (by decide)).mp hest.client
    cases hest.rxFn

end Ulisse
