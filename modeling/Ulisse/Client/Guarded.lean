import Ulisse.Client.Rules
import Ulisse.Client.Threads

/-!
# Client.Guarded — what the two mutexes guard

`write_mutex` guards the transmit half of the handler, the sequence number and what is written,
`read_mutex` the receive half, the memory and what is read.  `UlisseClient_sync` reads
`end_epoch.seq` and `UlisseClient_get` the operations without a lock, but nothing ever changes them.
So the calls keep the discipline of `Lib.Locks`, whatever threads there are
(`threads_disciplined`).
-/

namespace Ulisse

open BlockMem Run Framing Locks

/-- What `write_mutex` guards. -/
structure WriteHalf where
  txBuffer : Fin packetSizeMax → UInt8
  txStart : ℤ
  txEnd : ℤ
  txSize : ℤ
  globalSeq : UInt16
  written : List (Option UInt8)

/-- What `read_mutex` guards. -/
structure ReadHalf where
  rxBuffer : Option (Ptr Obj)
  rxBufferEnd : Option (Ptr Obj)
  rxCurrentOp : Option (PacketOperations Obj.size)
  rxCurrentPacket : Option (Ptr Obj)
  rxBytesToRead : UInt8
  rxFn : RxFn
  mem : Mem UInt8 Obj.size
  answers : List ReadAnswer

def Mutex.Half : Mutex → Type
  | write => WriteHalf
  | read => ReadHalf

namespace Shared

def half (s : Shared) : (m : Mutex) → m.Half
  | .write =>
    let h := s.client.packetHandler
    ⟨h.txBuffer, h.txStart, h.txEnd, h.txSize, s.client.globalSeq, s.written⟩
  | .read =>
    let h := s.client.packetHandler
    ⟨h.rxBuffer, h.rxBufferEnd, h.rxCurrentOp, h.rxCurrentPacket, h.rxBytesToRead, h.rxFn,
      s.client.mem, s.answers⟩

/-- `t` with the half of `w` that `write_mutex` guards, and the half of `r` that `read_mutex`
guards. -/
def mix (w r t : Shared) : Shared where
  client :=
    { t.client with
      packetHandler := r.client.packetHandler.withTx w.client.packetHandler
      globalSeq := w.client.globalSeq
      mem := r.client.mem }
  answers := r.answers
  written := w.written

def overlay (H : Finset Mutex) (s t : Shared) : Shared :=
  mix (if .write ∈ H then s else t) (if .read ∈ H then s else t) t

/-- The client is in the state that its set-up leads to, and what no mutex guards is as it was. -/
structure Good (heap : Fin 4 → ℕ) (fd : ℤ) (epoch : UInt16) (s : Shared) : Prop where
  client : ∃ ph q, ClientAt heap s.client ph q
  fd : s.client.fd = fd
  epoch : s.client.endEpochSeq = epoch

section Parts

variable {heap : Fin 4 → ℕ} {fd : ℤ} {epoch : UInt16} {s t w r : Shared}

theorem Good.mix (hw : Good heap fd epoch w) (hr : Good heap fd epoch r)
    (ht : Good heap fd epoch t) : Good heap fd epoch (mix w r t) := by
  obtain ⟨phw, qw, hclw⟩ := hw.client
  obtain ⟨phr, qr, hclr⟩ := hr.client
  obtain ⟨pht, qt, hclt⟩ := ht.client
  refine ⟨⟨phr, qw, ?_⟩, ht.fd, hr.epoch⟩
  have hring : RingAt (Shared.mix w r t).client.packetHandler qw :=
    ⟨hclw.ring.cells, hclw.ring.start, hclw.ring.tail, hclw.ring.size⟩
  exact hclr.tx ⟨_, _, _, _, rfl⟩ hring rfl (hclt.sizes.trans hclr.sizes.symm)

theorem Good.ext (hs : Good heap fd epoch s) (ht : Good heap fd epoch t)
    (h : ∀ m, s.half m = t.half m) : s = t := by
  obtain ⟨phs, qs, hcls⟩ := hs.client
  obtain ⟨pht, qt, hclt⟩ := ht.client
  have hops := hcls.rx.table.trans hclt.rx.table.symm
  have hsizes := hcls.sizes.trans hclt.sizes.symm
  have hfd := hs.fd.trans ht.fd.symm
  have hw := h .write
  have hr := h .read
  obtain ⟨⟨⟨_, _, _, _, _, _, _, _, _, _, _⟩, _, _, _, _⟩, _, _⟩ := s
  obtain ⟨⟨⟨_, _, _, _, _, _, _, _, _, _, _⟩, _, _, _, _⟩, _, _⟩ := t
  obtain ⟨rfl, rfl, rfl, rfl, rfl, rfl⟩ := WriteHalf.mk.inj hw
  obtain ⟨rfl, rfl, rfl, rfl, rfl, rfl, rfl, rfl⟩ := ReadHalf.mk.inj hr
  cases hops
  cases hsizes
  cases hfd
  rfl

theorem half_overlay (H : Finset Mutex) (s t : Shared) (m : Mutex) :
    (overlay H s t).half m = if m ∈ H then s.half m else t.half m := by
  cases m with
  | write =>
    unfold overlay
    by_cases h : Mutex.write ∈ H
    · simp only [if_pos h]
      rfl
    · simp only [if_neg h]
      rfl
  | read =>
    unfold overlay
    by_cases h : Mutex.read ∈ H
    · simp only [if_pos h]
      rfl
    · simp only [if_neg h]
      rfl

theorem Good.overlay (H : Finset Mutex) (hs : Good heap fd epoch s) (ht : Good heap fd epoch t) :
    Good heap fd epoch (overlay H s t) := by
  unfold Shared.overlay
  refine Good.mix ?_ ?_ ht
  · split_ifs
    exacts [hs, ht]
  · split_ifs
    exacts [hs, ht]

/-- The two halves as parts. -/
def parts (heap : Fin 4 → ℕ) (fd : ℤ) (epoch : UInt16) : Parts Mutex Shared where
  Part := Mutex.Half
  part m s := s.half m
  overlay := overlay
  Good := Good heap fd epoch
  part_overlay H s t m := half_overlay H s t m
  good_overlay H _ _ hs ht := hs.overlay H ht
  ext _ _ hs ht h := hs.ext ht h

end Parts

/-! ## The three kinds of work -/

section Work

variable {heap : Fin 4 → ℕ} {fd : ℤ} {epoch : UInt16} {s t : Shared} {p : Packet}

theorem Good.sizes (hs : Good heap fd epoch s) : s.client.packetSizes = Client.packetSizes := by
  obtain ⟨ph, q, hcl⟩ := hs.client
  exact hcl.sizes

theorem overlay_write (s t : Shared) : overlay {.write} s t = mix s t t := by
  have hw : Mutex.write ∈ ({.write} : Finset Mutex) := Finset.mem_singleton_self _
  have hr : Mutex.read ∉ ({.write} : Finset Mutex) := by simp
  rw [overlay, if_pos hw, if_neg hr]

theorem overlay_read (s t : Shared) : overlay {.read} s t = mix t s t := by
  have hr : Mutex.read ∈ ({.read} : Finset Mutex) := Finset.mem_singleton_self _
  have hw : Mutex.write ∉ ({.read} : Finset Mutex) := by simp
  rw [overlay, if_pos hr, if_neg hw]

theorem sendPacket_local : (parts heap fd epoch).Local {.write} (Shared.sendPacket p) := by
  intro s t hs ht
  show Shared.sendPacket p (overlay {.write} s t) =
    (Shared.sendPacket p s).map fun r => (overlay {.write} r.1 t, r.2)
  simp only [overlay_write]
  have hsizes : t.client.packetSizes = s.client.packetSizes := ht.sizes.trans hs.sizes.symm
  obtain ⟨⟨h, seq, mem, fd, sizes⟩, answers, written⟩ := t
  obtain rfl : sizes = s.client.packetSizes := hsizes
  unfold Shared.sendPacket Client.sendPacket
  simp only [mix, sendPacket_withTx]
  split_ifs
  · rfl
  · rfl
  · cases s.client.packetHandler.sendPacket (p.setSeq (s.client.globalSeq + 1)) <;> rfl
  · rfl

theorem clientSend_fd {cl cl' : UlisseClient} {status : PacketStatus} {p' : Packet}
    (h : Client.sendPacket cl p = some (status, cl', p')) : cl'.fd = cl.fd := by
  unfold Client.sendPacket at h
  simp only at h
  split_ifs at h
  · obtain ⟨-, h⟩ := Prod.mk.inj (Option.some_inj.mp h)
    rw [← (Prod.mk.inj h).1]
  · obtain ⟨-, h⟩ := Prod.mk.inj (Option.some_inj.mp h)
    rw [← (Prod.mk.inj h).1]
  · obtain ⟨q, -, h⟩ := Option.map_eq_some_iff.mp h
    obtain ⟨-, h⟩ := Prod.mk.inj h
    rw [← (Prod.mk.inj h).1]
  · obtain ⟨-, h⟩ := Prod.mk.inj (Option.some_inj.mp h)
    rw [← (Prod.mk.inj h).1]

/-- `_sendPacket` is defined, and leaves a good state. -/
theorem sendPacket_good (hs : Good heap fd epoch s) (p : Packet) :
    ∃ s' r, s.sendPacket p = .ok (s', r) ∧ Good heap fd epoch s' := by
  obtain ⟨ph, q, hcl⟩ := hs.client
  obtain ⟨status, cl', p', q', he, hcl', hmem, -⟩ := clientSend_ok hcl p
  refine ⟨{ s with client := cl' }, (status, p'), by simp only [Shared.sendPacket, he],
    ⟨ph, q', hcl'⟩, (clientSend_fd he).trans hs.fd, ?_⟩
  show headerSeq (cl'.mem.cells .endEpoch) = epoch
  rw [hmem]
  exact hs.epoch

theorem flushTurn_local : (parts heap fd epoch).Local {.write} Shared.flushTurn := by
  intro s t hs ht
  show Shared.flushTurn (overlay {.write} s t) =
    (Shared.flushTurn s).map fun r => (overlay {.write} r.1 t, r.2)
  simp only [overlay_write]
  have hhandler : (mix s t t).client.packetHandler =
      t.client.packetHandler.withTx s.client.packetHandler := rfl
  have hsize : (t.client.packetHandler.withTx s.client.packetHandler).txSize =
      s.client.packetHandler.txSize := rfl
  unfold Shared.flushTurn
  simp only [hhandler, hsize, txByte_withTx]
  split_ifs
  · rfl
  · cases s.client.packetHandler.txByte <;> rfl

/-- A turn of the flush takes out a byte, if there is one. -/
theorem flushTurn_good (hs : Good heap fd epoch s) :
    ∃ s' r, s.flushTurn = .ok (s', r) ∧ Good heap fd epoch s' := by
  obtain ⟨ph, q, hcl⟩ := hs.client
  unfold Shared.flushTurn
  split_ifs with h0
  · exact ⟨s, true, rfl, hs⟩
  · have hpos : 0 < q.size := by
      have hsize := hcl.ring.size
      omega
    obtain ⟨h', hb, hq'⟩ := txByte_ring hcl.ring hpos
    rw [hb]
    exact ⟨_, _, rfl, ⟨ph, _, hcl.tx (txByte_change hb) hq' rfl rfl⟩, hs.fd, hs.epoch⟩

theorem readTurn_local : (parts heap fd epoch).Local {.read} Shared.readTurn := by
  intro s t hs ht
  show Shared.readTurn (overlay {.read} s t) =
    (Shared.readTurn s).map fun r => (overlay {.read} r.1 t, r.2)
  simp only [overlay_read]
  have hanswers : (mix t s t).answers = s.answers := rfl
  have hrx : (mix t s t).client.rx = s.client.rx.withTx t.client.packetHandler := rfl
  unfold Shared.readTurn
  rw [hanswers, hrx]
  cases s.answers with
  | nil => rfl
  | cons a answers =>
    cases ha : a.fed with
    | none => simp only [ha]; rfl
    | some c =>
      simp only [ha, rxByte_withTx]
      cases rxByte s.client.rx c <;> rfl

/-- A byte never reaches `end_epoch`. -/
theorem copied_endEpoch {s : RxState Obj.size} {ph : ClientPhase} (hs : ListensAt heap s ph)
    (c : UInt8) : copied s.mem ((rxScheme (clientTable heap)).step true ph c).2.done? .endEpoch =
      s.mem.cells .endEpoch := by
  rcases (rxScheme (clientTable heap)).step_cases true ph c with
    ⟨t, op, x, got, rfl, -, hstep⟩ | ⟨hd, -⟩
  · obtain ⟨hlook, -⟩ := hs.rx.wf
    obtain ⟨addr, dest, hd, rfl⟩ := lookup_client hlook
    obtain ⟨-, -, -, hne, -⟩ := destination_some hd
    rw [hstep]
    show (if some (⟨dest, 0⟩ : Ptr Obj) = some ⟨.endEpoch, 0⟩ then _ else _) = _
    rw [if_neg]
    simp [hne]
  · rw [hd]
    rfl

/-- A turn of `_readPacket` needs an answer, and nothing else. -/
theorem readTurn_good (hs : Good heap fd epoch s) :
    (s.answers = [] ∧ s.readTurn = .error .blocked) ∨
      ∃ s' r, s.readTurn = .ok (s', r) ∧ Good heap fd epoch s' := by
  obtain ⟨ph, q, hcl⟩ := hs.client
  unfold Shared.readTurn
  cases s.answers with
  | nil => exact Or.inl ⟨rfl, rfl⟩
  | cons a answers =>
    refine Or.inr ?_
    cases ha : a.fed with
    | none =>
      simp only [ha]
      exact ⟨_, _, rfl, ⟨ph, q, hcl⟩, hs.fd, hs.epoch⟩
    | some c =>
      obtain ⟨rx, r, he, hcl', -, hmem⟩ := rxByte_client hcl c
      simp only [ha, he]
      refine ⟨_, _, rfl, ⟨_, q, hcl'⟩, hs.fd, ?_⟩
      show headerSeq (rx.mem.cells .endEpoch) = epoch
      rw [show rx.mem.cells .endEpoch = _ from hmem .endEpoch (by decide)]
      exact (congrArg headerSeq (copied_endEpoch hcl.listens c)).trans hs.epoch

end Work

end Shared

/-! ## The discipline -/

/-- What a thread holds. -/
def Thread.held (th : Thread) : Finset Mutex := th.pc.held

section Discipline

variable {th k : Thread} {m : Mutex}

theorem write_lt_read : Mutex.write < Mutex.read := by decide

theorem erase_read : ({.read, .write} : Finset Mutex).erase .read = {.write} := by decide

/-- Taking a mutex. -/
theorem program_lock (h : th.program = .lock m k) :
    (∀ m' ∈ th.held, m' < m) ∧ k.held = insert m th.held := by
  obtain ⟨pc, returns, script⟩ := th
  cases pc with
  | ready =>
    simp only [Thread.program] at h
    cases hs : script returns with
    | none => rw [hs] at h; cases h
    | some call =>
      rw [hs] at h
      cases call with
      | sendPacket p timeout =>
        obtain ⟨rfl, rfl⟩ := Action.lock.inj h
        refine ⟨fun m' hm => absurd hm (Finset.notMem_empty m'), ?_⟩
        show Pc.held (if timeout = 0 then _ else _) = _
        split_ifs <;> rfl
      | get type => cases h
      | sync cycles => cases h
  | sendLockRead p timeout =>
    obtain ⟨rfl, rfl⟩ := Action.lock.inj h
    refine ⟨fun m' hm => ?_, rfl⟩
    rw [Finset.mem_singleton.mp hm]
    exact write_lt_read
  | getLock ops =>
    obtain ⟨rfl, rfl⟩ := Action.lock.inj h
    exact ⟨fun m' hm => absurd hm (Finset.notMem_empty m'), rfl⟩
  | syncLoop cycles =>
    cases cycles with
    | zero => cases h
    | succ cycles =>
      obtain ⟨rfl, rfl⟩ := Action.lock.inj h
      exact ⟨fun m' hm => absurd hm (Finset.notMem_empty m'), rfl⟩
  | syncLockRead cycles currentSeq =>
    obtain ⟨rfl, rfl⟩ := Action.lock.inj h
    exact ⟨fun m' hm => absurd hm (Finset.notMem_empty m'), rfl⟩
  | sendAwait p timeout => cases timeout <;> cases h
  | _ => cases h

/-- Giving a mutex back. -/
theorem program_unlock (h : th.program = .unlock m k) :
    m ∈ th.held ∧ k.held = th.held.erase m ∧
      (k.held ≠ ∅ → ∃ m' k', k.program = .unlock m' k') := by
  obtain ⟨pc, returns, script⟩ := th
  cases pc with
  | ready =>
    simp only [Thread.program] at h
    cases hs : script returns with
    | none => rw [hs] at h; cases h
    | some call => rw [hs] at h; cases call <;> cases h
  | sendAwait p timeout =>
    cases timeout with
    | succ timeout => cases h
    | zero =>
      obtain ⟨rfl, rfl⟩ := Action.unlock.inj h
      exact ⟨Finset.mem_insert_self _ _, erase_read.symm, fun _ => ⟨_, _, rfl⟩⟩
  | sendUnlockRead status p =>
    obtain ⟨rfl, rfl⟩ := Action.unlock.inj h
    exact ⟨Finset.mem_insert_self _ _, erase_read.symm, fun _ => ⟨_, _, rfl⟩⟩
  | sendUnlockWrite status p =>
    obtain ⟨rfl, rfl⟩ := Action.unlock.inj h
    exact ⟨Finset.mem_singleton_self _, (Finset.erase_singleton _).symm, fun hne => absurd rfl hne⟩
  | getUnlock bytes =>
    obtain ⟨rfl, rfl⟩ := Action.unlock.inj h
    exact ⟨Finset.mem_singleton_self _, (Finset.erase_singleton _).symm, fun hne => absurd rfl hne⟩
  | syncUnlockWrite cycles =>
    obtain ⟨rfl, rfl⟩ := Action.unlock.inj h
    exact ⟨Finset.mem_singleton_self _, (Finset.erase_singleton _).symm, fun hne => absurd rfl hne⟩
  | syncUnlockRead cycles currentSeq =>
    obtain ⟨rfl, rfl⟩ := Action.unlock.inj h
    exact ⟨Finset.mem_singleton_self _, (Finset.erase_singleton _).symm, fun hne => absurd rfl hne⟩
  | syncLoop cycles => cases cycles <;> cases h
  | _ => cases h

variable {heap : Fin 4 → ℕ} {fd : ℤ} {epoch : UInt16}

theorem write_subset : ({.write} : Finset Mutex) ⊆ {.read, .write} := by decide

theorem read_subset : ({.read} : Finset Mutex) ⊆ {.read, .write} := by decide

theorem sendPacket_keeps (p : Packet) :
    (Shared.parts heap fd epoch).Keeps (Shared.sendPacket p) := by
  intro s s' r hs he
  obtain ⟨u, r', he', hu⟩ := Shared.sendPacket_good hs p
  rw [he'] at he
  obtain ⟨rfl, -⟩ := Prod.mk.inj (Except.ok.inj he)
  exact hu

theorem flushTurn_keeps : (Shared.parts heap fd epoch).Keeps Shared.flushTurn := by
  intro s s' r hs he
  obtain ⟨u, r', he', hu⟩ := Shared.flushTurn_good hs
  rw [he'] at he
  obtain ⟨rfl, -⟩ := Prod.mk.inj (Except.ok.inj he)
  exact hu

theorem readTurn_keeps : (Shared.parts heap fd epoch).Keeps Shared.readTurn := by
  intro s s' r hs he
  rcases Shared.readTurn_good hs with ⟨-, he'⟩ | ⟨u, r', he', hu⟩
  · rw [he'] at he
    cases he
  · rw [he'] at he
    obtain ⟨rfl, -⟩ := Prod.mk.inj (Except.ok.inj he)
    exact hu

/-- What no mutex guards is the same in all good states. -/
theorem Good_operations {s t : Shared} (hs : Shared.Good heap fd epoch s)
    (ht : Shared.Good heap fd epoch t) :
    s.client.packetHandler.operations = t.client.packetHandler.operations := by
  obtain ⟨ph, q, hcl⟩ := hs.client
  obtain ⟨ph', q', hcl'⟩ := ht.client
  exact hcl.rx.table.trans hcl'.rx.table.symm

theorem overlay_mem {s t : Shared} {H : Finset Mutex} (h : .read ∈ H) :
    (Shared.overlay H s t).client.mem = s.client.mem := by
  simp only [Shared.overlay, if_pos h]
  rfl

theorem responseMatches_congr {cl cl' : UlisseClient} {type : UInt8} {seq : UInt16}
    (h : cl.mem = cl'.mem) :
    Client.ResponseMatches cl type seq ↔ Client.ResponseMatches cl' type seq := by
  unfold Client.ResponseMatches
  rw [h]

theorem overlay_epoch {s t : Shared} {H : Finset Mutex} (hs : Shared.Good heap fd epoch s)
    (ht : Shared.Good heap fd epoch t) :
    (Shared.overlay H s t).client.endEpochSeq = s.client.endEpochSeq :=
  (hs.overlay H ht).epoch.trans hs.epoch.symm

theorem enterGet_congr {cl cl' : UlisseClient} (type : UInt8)
    (h : cl.packetHandler.operations = cl'.packetHandler.operations) :
    th.enterGet type cl = th.enterGet type cl' := by
  unfold Thread.enterGet
  rw [h]

/-- **Working**: what a thread does without waiting is local to what it holds. -/
theorem program_local {f : Shared → Except Stuck (Shared × Thread)} (h : th.program = .work f) :
    (Shared.parts heap fd epoch).Local th.held f := by
  obtain ⟨pc, returns, script⟩ := th
  cases pc with
  | ready =>
    simp only [Thread.program] at h
    cases hs : script returns with
    | none => rw [hs] at h; cases h
    | some call =>
      rw [hs] at h
      cases call with
      | sendPacket p timeout => cases h
      | get type =>
        obtain rfl := Action.work.inj h
        refine Parts.local_look _ fun s t hs ht => enterGet_congr type ?_
        exact Good_operations (hs.overlay ∅ ht) hs
      | sync cycles =>
        obtain rfl := Action.work.inj h
        exact Parts.local_look _ fun _ _ _ _ => rfl
  | sendDeferred p =>
    obtain rfl := Action.work.inj h
    exact Shared.sendPacket_local.andThen _ _
  | sendBlocking p timeout =>
    obtain rfl := Action.work.inj h
    exact (Shared.sendPacket_local.mono _ (sendPacket_keeps p) write_subset).andThen _ _
  | sendFlush p timeout =>
    obtain rfl := Action.work.inj h
    exact (Shared.flushTurn_local.mono _ flushTurn_keeps write_subset).andThen _ _
  | sendAwait p timeout =>
    cases timeout with
    | zero => cases h
    | succ timeout =>
      obtain rfl := Action.work.inj h
      exact (Shared.readTurn_local.mono _ readTurn_keeps read_subset).andThen _ _
  | sendTest p timeout =>
    obtain rfl := Action.work.inj h
    have hr : Mutex.read ∈ Pc.held (.sendTest p timeout) := Finset.mem_insert_self _ _
    refine Parts.local_look _ fun s t _ _ => congrArg (Thread.goto _) (if_congr ?_ rfl rfl)
    exact responseMatches_congr (overlay_mem hr)
  | getCopy ops =>
    obtain rfl := Action.work.inj h
    have hr : Mutex.read ∈ Pc.held (.getCopy ops) := Finset.mem_singleton_self _
    refine Parts.local_look _ fun s t _ _ => congrArg (Thread.goto _) ?_
    exact congrArg (fun m => Pc.getUnlock ((readable m ops.onReciveArgs).take ops.size.toNat))
      (overlay_mem hr)
  | syncLoop cycles =>
    cases cycles with
    | zero =>
      obtain rfl := Action.work.inj h
      exact Parts.local_look _ fun _ _ _ _ => rfl
    | succ cycles => cases h
  | syncFlush cycles =>
    obtain rfl := Action.work.inj h
    exact Shared.flushTurn_local.andThen _ _
  | syncSeq cycles =>
    obtain rfl := Action.work.inj h
    refine Parts.local_look _ fun s t hs ht => congrArg (Thread.goto _) ?_
    exact congrArg (Pc.syncLockRead cycles) (overlay_epoch hs ht)
  | syncRead cycles currentSeq =>
    obtain rfl := Action.work.inj h
    exact Shared.readTurn_local.andThen _ _
  | syncTest cycles currentSeq =>
    obtain rfl := Action.work.inj h
    refine Parts.local_look _ fun s t hs ht => congrArg (Thread.goto _) (if_congr ?_ rfl rfl)
    exact Eq.congr_right (overlay_epoch hs ht)
  | _ => cases h

/-- Work leaves a good state, and what is held. -/
theorem program_next {f : Shared → Except Stuck (Shared × Thread)} (h : th.program = .work f)
    {s s' : Shared} (hs : Shared.Good heap fd epoch s) (he : f s = .ok (s', k)) :
    Shared.Good heap fd epoch s' ∧ k.held = th.held := by
  obtain ⟨pc, returns, script⟩ := th
  cases pc with
  | ready =>
    simp only [Thread.program] at h
    cases hcall : script returns with
    | none => rw [hcall] at h; cases h
    | some call =>
      rw [hcall] at h
      cases call with
      | sendPacket p timeout => cases h
      | get type =>
        obtain rfl := Action.work.inj h
        obtain ⟨rfl, rfl⟩ := look_ok he
        refine ⟨hs, ?_⟩
        unfold Thread.enterGet
        split_ifs
        · split <;> rfl
        · rfl
      | sync cycles =>
        obtain rfl := Action.work.inj h
        obtain ⟨rfl, rfl⟩ := look_ok he
        exact ⟨hs, rfl⟩
  | sendDeferred p =>
    obtain rfl := Action.work.inj h
    obtain ⟨r, hr, rfl⟩ := andThen_ok he
    exact ⟨sendPacket_keeps p s s' r hs hr, rfl⟩
  | sendBlocking p timeout =>
    obtain rfl := Action.work.inj h
    obtain ⟨r, hr, rfl⟩ := andThen_ok he
    refine ⟨sendPacket_keeps p s s' r hs hr, ?_⟩
    show Pc.held (if r.1 ≠ .success then _ else _) = _
    split_ifs <;> rfl
  | sendFlush p timeout =>
    obtain rfl := Action.work.inj h
    obtain ⟨r, hr, rfl⟩ := andThen_ok he
    refine ⟨flushTurn_keeps s s' r hs hr, ?_⟩
    cases r <;> rfl
  | sendAwait p timeout =>
    cases timeout with
    | zero => cases h
    | succ timeout =>
      obtain rfl := Action.work.inj h
      obtain ⟨r, hr, rfl⟩ := andThen_ok he
      refine ⟨readTurn_keeps s s' r hs hr, ?_⟩
      cases r <;> rfl
  | sendTest p timeout =>
    obtain rfl := Action.work.inj h
    obtain ⟨rfl, rfl⟩ := look_ok he
    refine ⟨hs, ?_⟩
    show Pc.held (if Client.ResponseMatches s'.client p.type p.seq then _ else _) = _
    split_ifs <;> rfl
  | getCopy ops =>
    obtain rfl := Action.work.inj h
    obtain ⟨rfl, rfl⟩ := look_ok he
    exact ⟨hs, rfl⟩
  | syncLoop cycles =>
    cases cycles with
    | zero =>
      obtain rfl := Action.work.inj h
      obtain ⟨rfl, rfl⟩ := look_ok he
      exact ⟨hs, rfl⟩
    | succ cycles => cases h
  | syncFlush cycles =>
    obtain rfl := Action.work.inj h
    obtain ⟨r, hr, rfl⟩ := andThen_ok he
    refine ⟨flushTurn_keeps s s' r hs hr, ?_⟩
    cases r <;> rfl
  | syncSeq cycles =>
    obtain rfl := Action.work.inj h
    obtain ⟨rfl, rfl⟩ := look_ok he
    exact ⟨hs, rfl⟩
  | syncRead cycles currentSeq =>
    obtain rfl := Action.work.inj h
    obtain ⟨r, hr, rfl⟩ := andThen_ok he
    refine ⟨readTurn_keeps s s' r hs hr, ?_⟩
    cases r <;> rfl
  | syncTest cycles currentSeq =>
    obtain rfl := Action.work.inj h
    obtain ⟨rfl, rfl⟩ := look_ok he
    refine ⟨hs, ?_⟩
    show Pc.held (if currentSeq = s'.client.endEpochSeq then _ else _) = _
    split_ifs <;> rfl
  | _ => cases h

theorem program_done (h : th.program = .done) : th.held = ∅ := by
  obtain ⟨pc, returns, script⟩ := th
  cases pc with
  | ready => rfl
  | sendAwait p timeout => cases timeout <;> cases h
  | syncLoop cycles => rfl
  | _ => cases h

/-- **The calls keep the discipline.** -/
theorem threads_disciplined (heap : Fin 4 → ℕ) (fd : ℤ) (epoch : UInt16) :
    Disciplined (Shared.parts heap fd epoch) Thread.program Thread.held where
  lock_next := program_lock
  unlock_next := program_unlock
  work_local := program_local
  work_next h _ _ _ hs he := program_next h hs he
  done_held := program_done

end Discipline

end Ulisse
