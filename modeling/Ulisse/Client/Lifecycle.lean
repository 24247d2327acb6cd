import Mathlib.Data.List.Perm.Basic
import Ulisse.Client.Setup
import Ulisse.Lib.Ledger

/-!
# Client.Lifecycle — what clients take and give back

`UlisseClient_init` opens a descriptor and allocates the client and four operations;
`UlisseClient_destroy` closes the descriptor and frees every operation that the table points to, and
the client.  No call in between changes the table, so a client gives back what it took exactly if the
other slots of its block held null when it was allocated (`destroy_restores_iff`).  A program may open
and destroy any number of clients: from such blocks it never frees what it does not own, and what is
left behind once all clients are destroyed are the descriptors of the set-ups that failed after
`open` (`process_owns`).
-/

namespace Ulisse

open BlockMem Run Ledger

/-- What a process holds: the addresses of its heap blocks, and its open descriptors. -/
structure Held where
  heap : Finset ℕ
  fds : Finset ℤ

namespace UlisseClient

/-- The operations that `UlisseClient_destroy` frees, by their addresses. -/
def operationAddrs (cl : UlisseClient) : List ℕ :=
  (List.finRange packetTypeMax).filterMap fun i =>
    (cl.packetHandler.operations i).map PacketOperations.addr

/-- All that is freed with the client at `addr`. -/
def blocks (addr : ℕ) (cl : UlisseClient) : List ℕ := cl.operationAddrs ++ [addr]

/-- `UlisseClient_destroy` of the client at `addr`; `none` if something is freed that is not held. -/
def destroy (addr : ℕ) (cl : UlisseClient) (held : Held) : Option Held :=
  (releaseAll (cl.blocks addr) held.heap).map fun heap => ⟨heap, held.fds.erase cl.fd⟩

end UlisseClient

/-- The blocks that a set-up allocates. -/
def allocated (addr : ℕ) (heap : Fin 4 → ℕ) : List ℕ := List.ofFn heap ++ [addr]

/-- `UlisseClient_init` in a process; `addr` is where `malloc` puts the client. -/
def initIn (held : Held) (opened attribs : ℤ) (addr : ℕ) (block : UlisseClient)
    (heap : Fin 4 → ℕ) : Held × InitResult :=
  -- what `serial_open` opened stays open whatever follows
  let fds := if opened < 0 then held.fds else insert opened held.fds
  match UlisseClient.init opened attribs block heap with
  | .client cl => (⟨takeAll (allocated addr heap) held.heap, fds⟩, .client cl)
  | result => (⟨held.heap, fds⟩, result)

/-! ## The calls keep what a client owns -/

/-- `cl'` has the descriptor and the operation table of `cl`. -/
structure SameOwner (cl cl' : UlisseClient) : Prop where
  fd : cl'.fd = cl.fd
  operations : cl'.packetHandler.operations = cl.packetHandler.operations

section Keeps

variable {cl cl' cl'' : UlisseClient} {answers rest : List ReadAnswer}

theorem SameOwner.refl (cl : UlisseClient) : SameOwner cl cl := ⟨rfl, rfl⟩

theorem SameOwner.trans (h : SameOwner cl cl') (h' : SameOwner cl' cl'') : SameOwner cl cl'' :=
  ⟨h'.fd.trans h.fd, h'.operations.trans h.operations⟩

theorem SameOwner.blocks (h : SameOwner cl cl') (addr : ℕ) : cl'.blocks addr = cl.blocks addr := by
  rw [UlisseClient.blocks, UlisseClient.operationAddrs, h.operations]
  rfl

theorem TxChange.operations {h h' : PacketHandler Obj.size} (hc : TxChange h h') :
    h'.operations = h.operations := by
  obtain ⟨_, _, _, _, rfl⟩ := hc
  rfl

theorem readPacket_owner {rs : List (RxReturn Obj.size)}
    (h : Client.readPacket cl answers = .ok (cl', rs, rest)) : SameOwner cl cl' := by
  induction answers generalizing cl rs rest with
  | nil => cases h
  | cons a answers ih =>
    rw [Client.readPacket] at h
    cases hfed : a.fed with
    | none =>
      rw [hfed] at h
      exact ih h
    | some c =>
      rw [hfed] at h
      cases hrx : rxByte cl.rx c with
      | none =>
        simp only [hrx] at h
        cases h
      | some x =>
        obtain ⟨s, r⟩ := x
        simp only [hrx] at h
        have hstep : SameOwner cl (cl.setRx s) := by
          refine ⟨rfl, ?_⟩
          show s.h.operations = cl.rx.h.operations
          cases rxByte_step hrx <;> rfl
        split_ifs at h
        · obtain ⟨rfl, -⟩ := Prod.mk.inj (Except.ok.inj h)
          exact hstep
        · cases hrest : Client.readPacket (cl.setRx s) answers with
          | error e =>
            rw [hrest] at h
            cases h
          | ok x =>
            obtain ⟨cl₁, rs₁, rest₁⟩ := x
            rw [hrest] at h
            obtain rfl : cl₁ = cl' := (Prod.mk.inj (Except.ok.inj h)).1
            exact hstep.trans (ih hrest)

theorem clientSend_owner {p p' : Packet} {status : PacketStatus}
    (h : Client.sendPacket cl p = some (status, cl', p')) : SameOwner cl cl' := by
  unfold Client.sendPacket at h
  simp only at h
  split_ifs at h
  · obtain ⟨-, h⟩ := Prod.mk.inj (Option.some_inj.mp h)
    exact (Prod.mk.inj h).1 ▸ ⟨rfl, rfl⟩
  · obtain ⟨-, h⟩ := Prod.mk.inj (Option.some_inj.mp h)
    exact (Prod.mk.inj h).1 ▸ ⟨rfl, rfl⟩
  · obtain ⟨q, hq, h⟩ := Option.map_eq_some_iff.mp h
    obtain ⟨-, h⟩ := Prod.mk.inj h
    exact (Prod.mk.inj h).1 ▸ ⟨rfl, (sendPacket_change hq).operations⟩
  · obtain ⟨-, h⟩ := Prod.mk.inj (Option.some_inj.mp h)
    exact (Prod.mk.inj h).1 ▸ ⟨rfl, rfl⟩

theorem flushLoop_change {n : ℕ} {h h' : PacketHandler Obj.size} {vs : List (Option UInt8)}
    (hf : Client.flushLoop n h = some (h', vs)) : TxChange h h' := by
  induction n generalizing h vs with
  | zero =>
    rw [Client.flushLoop] at hf
    split_ifs at hf
    obtain ⟨rfl, -⟩ := Prod.mk.inj (Option.some_inj.mp hf)
    exact .refl h
  | succ n ih =>
    rw [Client.flushLoop] at hf
    split_ifs at hf
    · obtain ⟨rfl, -⟩ := Prod.mk.inj (Option.some_inj.mp hf)
      exact .refl h
    · obtain ⟨⟨h₁, v⟩, hbyte, hrest⟩ := Option.bind_eq_some_iff.mp hf
      obtain ⟨⟨h₂, vs'⟩, hloop, he⟩ := Option.map_eq_some_iff.mp hrest
      obtain ⟨rfl, -⟩ := Prod.mk.inj he
      exact (txByte_change hbyte).trans (ih hloop)

theorem flushBuffer_owner {written : List (Option UInt8)}
    (h : Client.flushBuffer cl = some (cl', written)) : SameOwner cl cl' := by
  obtain ⟨⟨h₁, vs⟩, hloop, he⟩ := Option.map_eq_some_iff.mp h
  obtain ⟨rfl, -⟩ := Prod.mk.inj he
  exact ⟨rfl, (flushLoop_change hloop).operations⟩

theorem awaitResponse_owner {type : UInt8} {seq : UInt16} {n : ℕ} {status : PacketStatus}
    {rs : List (RxReturn Obj.size)}
    (h : Client.awaitResponse type seq n cl answers = .ok (status, cl', rs, rest)) :
    SameOwner cl cl' := by
  induction n generalizing cl answers rs rest status with
  | zero =>
    obtain ⟨-, h⟩ := Prod.mk.inj (Except.ok.inj h)
    exact (Prod.mk.inj h).1 ▸ .refl cl
  | succ n ih =>
    cases hread : Client.readPacket cl answers with
    | error e =>
      rw [Client.awaitResponse, hread] at h
      cases h
    | ok x =>
      obtain ⟨cl₁, rs₁, rest₁⟩ := x
      have h₁ := readPacket_owner hread
      rw [awaitResponse_succ hread] at h
      split_ifs at h
      · obtain ⟨-, h⟩ := Prod.mk.inj (Except.ok.inj h)
        exact (Prod.mk.inj h).1 ▸ h₁
      · cases hawait : Client.awaitResponse type seq n cl₁ rest₁ with
        | error e =>
          rw [hawait] at h
          cases h
        | ok x =>
          obtain ⟨status₂, cl₂, rs₂, rest₂⟩ := x
          rw [hawait] at h
          obtain ⟨-, h⟩ := Prod.mk.inj (Except.ok.inj h)
          obtain rfl : cl₂ = cl' := (Prod.mk.inj h).1
          exact h₁.trans (ih hawait)

theorem sendPacket_owner {p : Packet} {timeout : ℤ} {ret : SendReturn}
    (h : cl.sendPacket p timeout answers = .ok ret) : SameOwner cl ret.client := by
  unfold UlisseClient.sendPacket at h
  cases hsend : Client.sendPacket cl p with
  | none =>
    simp only [hsend] at h
    cases h
  | some x =>
    obtain ⟨status, cl₁, p₁⟩ := x
    have h₁ := clientSend_owner hsend
    simp only [hsend] at h
    split_ifs at h
    · exact Except.ok.inj h ▸ h₁
    · exact Except.ok.inj h ▸ h₁
    · cases hflush : Client.flushBuffer cl₁ with
      | none =>
        simp only [hflush] at h
        cases h
      | some x =>
        obtain ⟨cl₂, written⟩ := x
        simp only [hflush] at h
        cases hawait : Client.awaitResponse p₁.type p₁.seq timeout.toNat cl₂ answers with
        | error e =>
          rw [hawait] at h
          cases h
        | ok x =>
          obtain ⟨status₃, cl₃, rs, rest⟩ := x
          rw [hawait] at h
          exact Except.ok.inj h ▸ (h₁.trans (flushBuffer_owner hflush)).trans
            (awaitResponse_owner hawait)

/-- No call changes what the client owns. -/
theorem clientStep_owner {call : ClientCall} {r : ClientReturn}
    (h : clientStep cl call = some (cl', r)) : SameOwner cl cl' := by
  cases call with
  | sendPacket p timeout answers =>
    obtain ⟨ret, hret, he⟩ := Option.map_eq_some_iff.mp h
    obtain ⟨rfl, -⟩ := Prod.mk.inj he
    cases hsend : cl.sendPacket p timeout answers with
    | error e =>
      rw [hsend] at hret
      cases hret
    | ok ret' =>
      rw [hsend] at hret
      obtain rfl : ret' = ret := Option.some_inj.mp hret
      exact sendPacket_owner hsend
  | readPacket answers =>
    obtain ⟨⟨cl₁, rs, rest⟩, hret, he⟩ := Option.map_eq_some_iff.mp h
    obtain ⟨rfl, -⟩ := Prod.mk.inj he
    cases hread : Client.readPacket cl answers with
    | error e =>
      rw [hread] at hret
      cases hret
    | ok x =>
      rw [hread] at hret
      obtain rfl : x = (cl₁, rs, rest) := Option.some_inj.mp hret
      exact readPacket_owner hread
  | get type =>
    obtain ⟨rfl, -⟩ := Prod.mk.inj (Option.some_inj.mp h)
    exact .refl cl

theorem clientRun_owner {calls : List ClientCall} {rs : List ClientReturn}
    (h : run clientStep cl calls = some (cl', rs)) : SameOwner cl cl' :=
  run_invariant (I := SameOwner cl) (fun _ _ _ _ hk hs => hk.trans (clientStep_owner hs)) (.refl cl) h

end Keeps

/-! ## One client -/

/-- The slots that no operation is installed in held null. -/
def BlankSlots (heap : Fin 4 → ℕ) (block : UlisseClient) : Prop :=
  ∀ t, clientTable heap t = none → block.packetHandler.operations t = none

/-- More values are found where `g` is asked too, unless it has none to add. -/
theorem length_filterMap_or {α β : Type} (f g : α → Option β) (l : List α) :
    (l.filterMap f).length ≤ (l.filterMap fun a => (f a).or (g a)).length ∧
      ((l.filterMap fun a => (f a).or (g a)).length = (l.filterMap f).length →
        ∀ a ∈ l, f a = none → g a = none) := by
  induction l with
  | nil => exact ⟨Nat.le_refl _, fun _ a ha => absurd ha List.not_mem_nil⟩
  | cons a l ih =>
    obtain ⟨hle, hnone⟩ := ih
    cases hf : f a with
    | some b =>
      rw [List.filterMap_cons_some hf, List.filterMap_cons_some (b := b) (by rw [hf]; rfl)]
      refine ⟨Nat.succ_le_succ hle, fun h c hc hfc => ?_⟩
      rcases List.mem_cons.mp hc with rfl | hc
      · rw [hf] at hfc
        cases hfc
      · exact hnone (Nat.succ.inj h) c hc hfc
    | none =>
      rw [List.filterMap_cons_none hf]
      cases hg : g a with
      | some b =>
        rw [List.filterMap_cons_some (b := b) (by rw [hf, hg]; rfl)]
        exact ⟨Nat.le_succ_of_le hle, fun h => absurd h (Nat.ne_of_gt (Nat.lt_succ_of_le hle))⟩
      | none =>
        rw [List.filterMap_cons_none (by rw [hf, hg]; rfl)]
        refine ⟨hle, fun h c hc hfc => ?_⟩
        rcases List.mem_cons.mp hc with rfl | hc
        · exact hg
        · exact hnone h c hc hfc

section One

variable {held held' : Held} {opened attribs : ℤ} {addr : ℕ} {block cl cl' : UlisseClient}
  {heap : Fin 4 → ℕ}

/-- A set-up returns null exactly if the port was not opened, or got no attributes, or has the
descriptor 0. -/
theorem init_null_iff : UlisseClient.init opened attribs block heap = .null ↔
    opened < 0 ∨ attribs < 0 ∨ opened = 0 := by
  unfold UlisseClient.init
  split_ifs with ho ha h0
  · exact iff_of_true rfl (Or.inl ho)
  · exact iff_of_true rfl (Or.inr (Or.inl ha))
  · exact iff_of_true rfl (Or.inr (Or.inr h0))
  · refine iff_of_false ?_ (by tauto)
    cases Client.installPackets heap { block with globalSeq := 0, fd := opened } with
    | none => exact fun h => (by cases h)
    | some cl => exact fun h => (by cases h)

/-- What a set-up that returns a client has done. -/
theorem initIn_client
    (h : initIn held opened attribs addr block heap = (held', .client cl)) :
    (0 < opened ∧ 0 ≤ attribs) ∧
      held' = ⟨takeAll (allocated addr heap) held.heap, insert opened held.fds⟩ ∧
      cl = block.setUp opened heap := by
  unfold initIn at h
  cases hinit : UlisseClient.init opened attribs block heap with
  | null =>
    rw [hinit] at h
    cases (Prod.mk.inj h).2
  | exit =>
    rw [hinit] at h
    cases (Prod.mk.inj h).2
  | client cl₁ =>
    rw [hinit] at h
    obtain ⟨rfl, hcl⟩ := Prod.mk.inj h
    obtain rfl := InitResult.client.inj hcl
    have hnull : ¬ (opened < 0 ∨ attribs < 0 ∨ opened = 0) := by
      have hne : UlisseClient.init opened attribs block heap ≠ .null := by
        rw [hinit]
        exact fun h => (by cases h)
      exact fun h => hne (init_null_iff.mpr h)
    refine ⟨by omega, ?_, init_client_setUp hinit⟩
    rw [if_neg (by omega)]

/-- What a set-up that returns null has done. -/
theorem initIn_null
    (h : initIn held opened attribs addr block heap = (held', .null)) :
    (opened < 0 ∨ attribs < 0 ∨ opened = 0) ∧
      held' = ⟨held.heap, if opened < 0 then held.fds else insert opened held.fds⟩ := by
  unfold initIn at h
  cases hinit : UlisseClient.init opened attribs block heap with
  | null =>
    rw [hinit] at h
    exact ⟨init_null_iff.mp hinit, (Prod.mk.inj h).1.symm⟩
  | exit =>
    rw [hinit] at h
    cases (Prod.mk.inj h).2
  | client cl =>
    rw [hinit] at h
    cases (Prod.mk.inj h).2

/-- The blocks are those that were allocated exactly if no other slot points to anything. -/
theorem setUp_blocks : ((block.setUp opened heap).blocks addr).Perm (allocated addr heap) ↔
    BlankSlots heap block := by
  have hops : ∀ t, (block.setUp opened heap).packetHandler.operations t =
      (clientTable heap t).or (block.packetHandler.operations t) := fun _ => rfl
  constructor
  · intro hp t ht
    have hlength := hp.length_eq
    rw [UlisseClient.blocks, UlisseClient.operationAddrs, List.length_append] at hlength
    have haddr : ∀ t, ((block.setUp opened heap).packetHandler.operations t).map
        PacketOperations.addr = ((clientTable heap t).map PacketOperations.addr).or
          ((block.packetHandler.operations t).map PacketOperations.addr) := by
      intro t
      rw [hops]
      cases clientTable heap t <;> rfl
    simp only [haddr] at hlength
    have hnone := (length_filterMap_or _ _ (List.finRange packetTypeMax)).2
      (Nat.succ.inj hlength) t (List.mem_finRange t) (by rw [ht]; rfl)
    exact Option.map_eq_none_iff.mp hnone
  · intro hblank
    have htable : (block.setUp opened heap).packetHandler.operations = clientTable heap := by
      funext t
      rw [hops]
      cases ht : clientTable heap t with
      | none => rw [hblank t ht, Option.none_or]
      | some op => rfl
    rw [UlisseClient.blocks, UlisseClient.operationAddrs, htable]
    -- the types of the last two operations are the other way around
    show [heap 0, heap 1, heap 3, heap 2, addr].Perm [heap 0, heap 1, heap 2, heap 3, addr]
    exact ((List.Perm.swap _ _ _).cons _).cons _

/-- **Destroying restores what was held before** exactly if the other slots of the block held null,
whatever was called in between. -/
theorem destroy_restores_iff {calls : List ClientCall} {rs : List ClientReturn}
    (hfd : opened ∉ held.fds) (hfresh : Fresh (allocated addr heap) held.heap)
    (hinit : initIn held opened attribs addr block heap = (held', .client cl))
    (hrun : run clientStep cl calls = some (cl', rs)) :
    cl'.destroy addr held' = some held ↔ BlankSlots heap block := by
  obtain ⟨-, rfl, rfl⟩ := initIn_client hinit
  have hkeeps := clientRun_owner hrun
  have hclosed : (insert opened held.fds).erase cl'.fd = held.fds := by
    rw [hkeeps.fd]
    exact Finset.erase_insert hfd
  rw [UlisseClient.destroy, hclosed, hkeeps.blocks addr, ← setUp_blocks, ← releaseAll_restores hfresh]
  constructor
  · intro h
    obtain ⟨left, hleft, he⟩ := Option.map_eq_some_iff.mp h
    rw [hleft, ← congrArg Held.heap he]
  · intro h
    rw [h]
    rfl

/-- A client in a block of zeros, asked for its joint status. -/
theorem destroy_restores_zero : ∃ held' cl rs,
    initIn ⟨∅, ∅⟩ 3 0 10 zeroBlock (fun i => i.val) = (held', .client cl) ∧
    run clientStep cl [.get 4] = some (cl, rs) ∧ cl.destroy 10 held' = some ⟨∅, ∅⟩ := by
  have hinit : initIn ⟨∅, ∅⟩ 3 0 10 zeroBlock (fun i => i.val) =
      (⟨takeAll (allocated 10 fun i => i.val) ∅, insert 3 ∅⟩,
        .client (zeroBlock.setUp 3 fun i => i.val)) := by
    have hclient : UlisseClient.init 3 0 zeroBlock (fun i => i.val) =
        .client (zeroBlock.setUp 3 fun i => i.val) :=
      (init_client_iff (by decide) (by decide)).mpr ⟨fun _ _ => rfl, rfl⟩
    rw [initIn, hclient]
    rfl
  have hget : clientStep (zeroBlock.setUp 3 fun i => i.val) (.get 4) =
      some (zeroBlock.setUp 3 fun i => i.val,
        .got ((zeroBlock.setUp 3 fun i => i.val).get 4).1
          ((zeroBlock.setUp 3 fun i => i.val).get 4).2) := rfl
  have hrun := run_singleton hget
  refine ⟨_, _, _, hinit, hrun, ?_⟩
  exact (destroy_restores_iff (by decide) (by decide) hinit hrun).mpr fun _ _ => rfl

end One

/-! ## A process with clients -/

/-- A process: what it holds, and its clients with their addresses, the latest first. -/
structure Process where
  held : Held
  clients : List (ℕ × UlisseClient)

/-- What the process does; clients are named by their places. -/
inductive ProcessCall where
  | init (opened attribs : ℤ) (addr : ℕ) (block : UlisseClient) (heap : Fin 4 → ℕ)
  | call (i : ℕ) (c : ClientCall)
  | destroy (i : ℕ)

/-- What it sees of that. -/
inductive ProcessReturn where
  | null
  | client
  | called (r : ClientReturn)
  | destroyed

/-- One call; `none` if it does not return, ends the process or is undefined, or if an answer of
`open` or `malloc` is in use already. -/
def processStep (p : Process) : ProcessCall → Option (Process × ProcessReturn)
  | .init opened attribs addr block heap =>
    if opened ∉ p.held.fds ∧ Fresh (allocated addr heap) p.held.heap then
      match initIn p.held opened attribs addr block heap with
      | (held, .null) => some (⟨held, p.clients⟩, .null)
      | (_, .exit) => none
      | (held, .client cl) => some (⟨held, (addr, cl) :: p.clients⟩, .client)
    else none
  | .call i c => do
    let (addr, cl) ← p.clients[i]?
    let (cl, r) ← clientStep cl c
    return (⟨p.held, p.clients.set i (addr, cl)⟩, .called r)
  | .destroy i => do
    let (addr, cl) ← p.clients[i]?
    let held ← cl.destroy addr p.held
    return (⟨held, p.clients.eraseIdx i⟩, .destroyed)

/-- A set-up starts from a block whose other slots hold null. -/
def ProcessCall.Blank : ProcessCall → Prop
  | .init _ _ _ block heap => BlankSlots heap block
  | _ => True

/-- The descriptor that a set-up opens and does not close when it fails. -/
def ProcessCall.leaked? : ProcessCall → Option ℤ
  | .init opened attribs _ _ _ =>
    if 0 ≤ opened ∧ (attribs < 0 ∨ opened = 0) then some opened else none
  | _ => none

/-- The descriptors that the set-ups of a run leave open. -/
def leaked (calls : List ProcessCall) : List ℤ := calls.filterMap ProcessCall.leaked?

/-- The blocks of all clients. -/
def ownedBlocks (clients : List (ℕ × UlisseClient)) : List ℕ :=
  clients.flatMap fun c => c.2.blocks c.1

/-- The descriptors of all clients. -/
def ownedFds (clients : List (ℕ × UlisseClient)) : List ℤ := clients.map fun c => c.2.fd

/-- What the process holds is what it held at first, what its clients own, and what was leaked; and
all of that is different. -/
structure Owns (start : Held) (lost : List ℤ) (p : Process) : Prop where
  heap : p.held.heap = takeAll (ownedBlocks p.clients) start.heap
  blocks : Fresh (ownedBlocks p.clients) start.heap
  descriptors : p.held.fds = takeAll (ownedFds p.clients ++ lost) start.fds
  fds : Fresh (ownedFds p.clients ++ lost) start.fds

section Process

variable {start : Held} {lost : List ℤ} {p p' : Process} {r : ProcessReturn} {i addr : ℕ}
  {cl cl' : UlisseClient}

theorem leaked_init (opened attribs : ℤ) (addr : ℕ) (block : UlisseClient) (heap : Fin 4 → ℕ) :
    leaked [.init opened attribs addr block heap] =
      if 0 ≤ opened ∧ (attribs < 0 ∨ opened = 0) then [opened] else [] := by
  rw [leaked, List.filterMap_cons, ProcessCall.leaked?]
  split_ifs <;> rfl

theorem leaked_append (calls calls' : List ProcessCall) :
    leaked (calls ++ calls') = leaked calls ++ leaked calls' := List.filterMap_append

/-- A client, and the others. -/
theorem clients_perm (h : p.clients[i]? = some (addr, cl)) :
    p.clients.Perm ((addr, cl) :: p.clients.eraseIdx i) := by
  obtain ⟨hi, hget⟩ := List.getElem?_eq_some_iff.mp h
  exact hget ▸ (List.getElem_cons_eraseIdx_perm hi).symm

/-- Only what the clients own matters. -/
theorem Owns.of_perm (h : Owns start lost p) (hheld : p'.held = p.held)
    (hblocks : (ownedBlocks p.clients).Perm (ownedBlocks p'.clients))
    (hfds : (ownedFds p.clients).Perm (ownedFds p'.clients)) : Owns start lost p' := by
  refine ⟨?_, h.blocks.perm hblocks, ?_, h.fds.perm (hfds.append_right lost)⟩
  · rw [hheld, h.heap, takeAll_perm hblocks]
  · rw [hheld, h.descriptors, takeAll_perm (hfds.append_right lost)]

/-- A call changes nothing of it. -/
theorem Owns.call (h : Owns start lost p) (hi : p.clients[i]? = some (addr, cl))
    (hk : SameOwner cl cl') : Owns start lost ⟨p.held, p.clients.set i (addr, cl')⟩ := by
  obtain ⟨hlt, -⟩ := List.getElem?_eq_some_iff.mp hi
  have hset := (List.set_perm_cons_eraseIdx hlt (addr, cl')).symm
  refine h.of_perm rfl ?_ ?_
  · refine ((clients_perm hi).flatMap_right _).trans (List.Perm.trans ?_ (hset.flatMap_right _))
    rw [List.flatMap_cons, List.flatMap_cons]
    dsimp only
    rw [hk.blocks addr]
  · refine ((clients_perm hi).map _).trans (List.Perm.trans ?_ (hset.map _))
    rw [List.map_cons, List.map_cons]
    dsimp only
    rw [hk.fd]

/-- **A client can always be destroyed**, and gives back what it owns. -/
theorem Owns.destroy (h : Owns start lost p) (hi : p.clients[i]? = some (addr, cl)) :
    ∃ held, cl.destroy addr p.held = some held ∧ Owns start lost ⟨held, p.clients.eraseIdx i⟩ := by
  have hfront : Owns start lost ⟨p.held, (addr, cl) :: p.clients.eraseIdx i⟩ :=
    h.of_perm rfl ((clients_perm hi).flatMap_right _) ((clients_perm hi).map _)
  obtain ⟨hheap, hblocks, hopen, hfds⟩ := hfront
  have hheap : p.held.heap = takeAll (cl.blocks addr ++ ownedBlocks (p.clients.eraseIdx i))
    start.heap := hheap
  have hblocks : Fresh (cl.blocks addr ++ ownedBlocks (p.clients.eraseIdx i)) start.heap := hblocks
  have hopen : p.held.fds = takeAll (cl.fd :: (ownedFds (p.clients.eraseIdx i) ++ lost))
    start.fds := hopen
  have hfds : Fresh (cl.fd :: (ownedFds (p.clients.eraseIdx i) ++ lost)) start.fds := hfds
  obtain ⟨hrest, hown⟩ := fresh_append.mp hblocks
  refine ⟨⟨takeAll (ownedBlocks (p.clients.eraseIdx i)) start.heap,
    takeAll (ownedFds (p.clients.eraseIdx i) ++ lost) start.fds⟩, ?_, rfl, hrest, rfl, ?_⟩
  · rw [UlisseClient.destroy, hheap, takeAll_append,
      (releaseAll_restores hown).mpr (List.Perm.refl _), hopen, takeAll_erase hfds]
    rfl
  · exact ⟨(List.nodup_cons.mp hfds.nodup).2,
      fun a ha => hfds.unheld a (List.mem_cons_of_mem _ ha)⟩

/-- A descriptor is opened, for a client or in vain. -/
theorem Owns.fds_cons {fd : ℤ} {fds : List ℤ} (h : Owns start lost p) (hfd : fd ∉ p.held.fds)
    (hp : (fd :: (ownedFds p.clients ++ lost)).Perm fds) :
    insert fd p.held.fds = takeAll fds start.fds ∧ Fresh fds start.fds := by
  rw [h.descriptors] at hfd ⊢
  rw [← takeAll_cons, takeAll_perm hp]
  refine ⟨rfl, Fresh.perm ?_ hp⟩
  refine ⟨List.nodup_cons.mpr ⟨fun hm => hfd (mem_takeAll.mpr (Or.inl hm)), h.fds.nodup⟩, ?_⟩
  intro a ha
  rcases List.mem_cons.mp ha with rfl | ha
  · exact fun hm => hfd (mem_takeAll.mpr (Or.inr hm))
  · exact h.fds.unheld a ha

/-- A set-up that fails leaks the descriptor that it opened. -/
theorem Owns.failed {opened attribs : ℤ} {block : UlisseClient} {heap : Fin 4 → ℕ}
    (h : Owns start lost p) (hfd : opened ∉ p.held.fds)
    (hnull : opened < 0 ∨ attribs < 0 ∨ opened = 0) :
    Owns start (lost ++ leaked [.init opened attribs addr block heap])
      ⟨⟨p.held.heap, if opened < 0 then p.held.fds else insert opened p.held.fds⟩, p.clients⟩ := by
  by_cases ho : opened < 0
  · rw [if_pos ho, leaked_init, if_neg (by omega), List.append_nil]
    exact ⟨h.heap, h.blocks, h.descriptors, h.fds⟩
  · rw [if_neg ho, leaked_init, if_pos (by omega)]
    have hp : (opened :: (ownedFds p.clients ++ lost)).Perm
        (ownedFds p.clients ++ (lost ++ [opened])) := by
      rw [← List.append_assoc]
      exact (List.perm_append_singleton opened _).symm
    obtain ⟨hfds, hfresh⟩ := h.fds_cons hfd hp
    exact ⟨h.heap, h.blocks, hfds, hfresh⟩

/-- A set-up that returns a client owns what it took. -/
theorem Owns.opened {opened : ℤ} {block : UlisseClient} {heap : Fin 4 → ℕ}
    (h : Owns start lost p) (hfd : opened ∉ p.held.fds)
    (hfresh : Fresh (allocated addr heap) p.held.heap) (hblank : BlankSlots heap block) :
    Owns start lost ⟨⟨takeAll (allocated addr heap) p.held.heap, insert opened p.held.fds⟩,
      (addr, block.setUp opened heap) :: p.clients⟩ := by
  have hp : ((block.setUp opened heap).blocks addr).Perm (allocated addr heap) :=
    setUp_blocks.mpr hblank
  obtain ⟨hfds, hfreshFds⟩ := h.fds_cons hfd (List.Perm.refl _)
  refine ⟨?_, ?_, hfds, hfreshFds⟩
  · show takeAll (allocated addr heap) p.held.heap =
      takeAll ((block.setUp opened heap).blocks addr ++ ownedBlocks p.clients) start.heap
    rw [takeAll_append, ← h.heap, takeAll_perm hp]
  · show Fresh ((block.setUp opened heap).blocks addr ++ ownedBlocks p.clients) start.heap
    rw [fresh_append, ← h.heap]
    exact ⟨h.blocks, hfresh.perm hp.symm⟩

/-- **A step keeps what the process owns**, up to what it leaks. -/
theorem Owns.step {call : ProcessCall} (h : Owns start lost p) (hblank : call.Blank)
    (hs : processStep p call = some (p', r)) :
    Owns start (lost ++ leaked [call]) p' := by
  cases call with
  | call i c =>
    obtain ⟨⟨addr, cl⟩, hi, hs⟩ := Option.bind_eq_some_iff.mp hs
    obtain ⟨⟨cl', r'⟩, hcall, hs⟩ := Option.bind_eq_some_iff.mp hs
    obtain ⟨rfl, -⟩ := Prod.mk.inj (Option.some_inj.mp hs)
    rw [show leaked [ProcessCall.call i c] = [] from rfl, List.append_nil]
    exact h.call hi (clientStep_owner hcall)
  | destroy i =>
    obtain ⟨⟨addr, cl⟩, hi, hs⟩ := Option.bind_eq_some_iff.mp hs
    obtain ⟨held, hheld, hs⟩ := Option.bind_eq_some_iff.mp hs
    obtain ⟨rfl, -⟩ := Prod.mk.inj (Option.some_inj.mp hs)
    obtain ⟨held', hheld', hown⟩ := h.destroy hi
    obtain rfl : held = held' := Option.some_inj.mp (hheld.symm.trans hheld')
    rw [show leaked [ProcessCall.destroy i] = [] from rfl, List.append_nil]
    exact hown
  | init opened attribs addr block heap =>
    rw [processStep] at hs
    split_ifs at hs with hnew
    obtain ⟨hfd, hfresh⟩ := hnew
    cases hinit : initIn p.held opened attribs addr block heap with
    | mk held result =>
      rw [hinit] at hs
      cases result with
      | exit => cases hs
      | null =>
        obtain ⟨rfl, -⟩ := Prod.mk.inj (Option.some_inj.mp hs)
        obtain ⟨hnull, rfl⟩ := initIn_null hinit
        exact h.failed hfd hnull
      | client cl =>
        obtain ⟨rfl, -⟩ := Prod.mk.inj (Option.some_inj.mp hs)
        obtain ⟨hpos, rfl, rfl⟩ := initIn_client hinit
        rw [leaked_init, if_neg (by omega), List.append_nil]
        exact h.opened hfd hfresh hblank

theorem Owns.initial (held : Held) : Owns held [] ⟨held, []⟩ := by
  refine ⟨?_, ⟨List.nodup_nil, fun a ha => absurd ha List.not_mem_nil⟩, ?_,
    ⟨List.nodup_nil, fun a ha => absurd ha List.not_mem_nil⟩⟩
  · exact (takeAll_nil held.heap).symm
  · exact (takeAll_nil held.fds).symm

/-- **Winding up**: the clients can be destroyed one after the other. -/
theorem Owns.windUp (h : Owns start lost p) :
    ∃ os, run processStep p (p.clients.map fun _ => .destroy 0) =
      some (⟨⟨start.heap, takeAll lost start.fds⟩, []⟩, os) := by
  obtain ⟨held, clients⟩ := p
  induction clients generalizing held with
  | nil =>
    obtain ⟨hheap, -, hopen, -⟩ := h
    have hheap : held.heap = start.heap := hheap.trans (takeAll_nil _)
    have hopen : held.fds = takeAll lost start.fds := hopen
    obtain ⟨heap, fds⟩ := held
    obtain rfl : heap = start.heap := hheap
    obtain rfl : fds = takeAll lost start.fds := hopen
    exact ⟨[], rfl⟩
  | cons c clients ih =>
    obtain ⟨addr, cl⟩ := c
    obtain ⟨held', hdestroy, hrest⟩ := h.destroy (i := 0) rfl
    obtain ⟨os, hrun⟩ := ih held' hrest
    have hstep : processStep ⟨held, (addr, cl) :: clients⟩ (.destroy 0) =
        some (⟨held', clients⟩, .destroyed) := by
      have hdestroy : cl.destroy addr held = some held' := hdestroy
      rw [processStep]
      show ((cl.destroy addr held).bind fun held => some (Process.mk held clients, _)) = _
      rw [hdestroy]
      rfl
    exact ⟨.destroyed :: os, by rw [List.map_cons, run_cons_of hstep, hrun]; rfl⟩

/-- **What a process with clients holds**: in every run whose clients are allocated in blocks that
hold null in the other slots, the process holds what it held at first, what its clients own, and the
descriptors of the set-ups that failed after `open`.  Each client can be destroyed at any time, and
once all are destroyed no block is left, and no descriptor but those of the failed set-ups. -/
theorem process_owns {calls : List ProcessCall} {rs : List ProcessReturn}
    (hblank : ∀ call ∈ calls, call.Blank)
    (hrun : run processStep ⟨start, []⟩ calls = some (p, rs)) :
    p.held.heap = takeAll (ownedBlocks p.clients) start.heap ∧
    p.held.fds = takeAll (ownedFds p.clients ++ leaked calls) start.fds ∧
    Fresh (ownedBlocks p.clients) start.heap ∧
    Fresh (ownedFds p.clients ++ leaked calls) start.fds ∧
    (∀ i, i < p.clients.length → (processStep p (.destroy i)).isSome) ∧
    ∃ os, run processStep p (p.clients.map fun _ => .destroy 0) =
      some (⟨⟨start.heap, takeAll (leaked calls) start.fds⟩, []⟩, os) := by
  have hown : Owns start (leaked calls) p := by
    refine run_history (J := fun calls _ p => (∀ call ∈ calls, call.Blank) →
      Owns start (leaked calls) p) ?_ ?_ hrun hblank
    · exact fun _ => .initial start
    · intro calls rs p call p' r hJ hs hall
      rw [leaked_append]
      exact (hJ fun c hc => hall c (List.mem_append_left _ hc)).step
        (hall call (List.mem_append_right _ List.mem_cons_self)) hs
  refine ⟨hown.heap, hown.descriptors, hown.blocks, hown.fds, fun i hi => ?_, hown.windUp⟩
  have hget : p.clients[i]? = some (p.clients[i].1, p.clients[i].2) :=
    List.getElem?_eq_some_iff.mpr ⟨hi, rfl⟩
  obtain ⟨held, hdestroy, -⟩ := hown.destroy hget
  rw [processStep, hget]
  show (((p.clients[i].2).destroy p.clients[i].1 p.held).bind _).isSome
  rw [hdestroy]
  rfl

/-- A port that gets no attributes, and another one. -/
def twoPorts : List ProcessCall :=
  [.init 3 (-1) 10 zeroBlock fun i => i.val, .init 4 0 10 zeroBlock fun i => i.val,
    .call 0 (.get 4)]

theorem process_owns_two : ∃ p rs, run processStep ⟨⟨∅, {0, 1, 2}⟩, []⟩ twoPorts = some (p, rs) ∧
    ∃ os, run processStep p (p.clients.map fun _ => .destroy 0) =
      some (⟨⟨∅, takeAll [3] {0, 1, 2}⟩, []⟩, os) := by
  have hblank : ∀ call ∈ twoPorts, call.Blank := by
    intro call hcall
    rcases List.mem_cons.mp hcall with rfl | hcall
    · exact fun _ _ => rfl
    · rcases List.mem_cons.mp hcall with rfl | hcall
      · exact fun _ _ => rfl
      · rcases List.mem_cons.mp hcall with rfl | hcall
        · trivial
        · cases hcall
  have hrun : (run processStep ⟨⟨∅, {0, 1, 2}⟩, []⟩ twoPorts).isSome := by decide +kernel
  obtain ⟨⟨p, rs⟩, hp⟩ := Option.isSome_iff_exists.mp hrun
  obtain ⟨-, -, -, -, -, hend⟩ := process_owns hblank hp
  exact ⟨p, rs, hp, hend⟩

end Process

end Ulisse
