import Ulisse.Client.Ack
import Ulisse.Client.Guarded
import Ulisse.Lib.Sections

/-!
# Client.Serial — the client's threads are as good as one

Each section of a call is what the client's function does when nobody else is there
(`threads_mean`).  So whatever threads there are, and however their steps interleave, they are where
the functions, called one after another, would have led them (`threads_serial`); a thread that
cannot go on waits, in the end, for a byte from the port (`threads_progress`).
-/

namespace Ulisse

open BlockMem Run Framing Locks

/-- The thread is in front of a `read`. -/
def Pc.Reads : Pc → Prop
  | .sendAwait _ (_ + 1) => True
  | .syncRead _ _ => True
  | _ => False

/-! ## What the sections mean -/

section Meaning

variable {heap : Fin 4 → ℕ} {fd : ℤ} {epoch : UInt16} {s s' : Shared} {th : Thread}
  {next : Shared → Except Stuck (Thread × Shared)}

/-- `_flushBuffer` ends at once on an empty ring. -/
theorem flushCall_end (h : s.flushTurn = .ok (s', true)) : Thread.flushCall s next = next s' := by
  unfold Shared.flushTurn at h
  split_ifs at h with h0
  · obtain ⟨rfl, -⟩ := Prod.mk.inj (Except.ok.inj h)
    have hf : Client.flushBuffer s.client = some (s.client, []) := by
      rw [Client.flushBuffer, h0]
      show (Client.flushLoop 0 _).map _ = _
      rw [Client.flushLoop, if_pos h0]
      rfl
    rw [Thread.flushCall, hf]
    simp only [List.append_nil]
  · split at h <;> cases h

/-- One turn of `_flushBuffer`, and the others. -/
theorem flushCall_turn (hs : Shared.Good heap fd epoch s) (h : s.flushTurn = .ok (s', false)) :
    Thread.flushCall s' next = Thread.flushCall s next := by
  obtain ⟨ph, q, hcl⟩ := hs.client
  unfold Shared.flushTurn at h
  split_ifs at h with h0
  · cases h
  · have hsize := hcl.ring.size
    have hpos : 0 < q.size := by omega
    obtain ⟨h', hb, hq'⟩ := txByte_ring hcl.ring hpos
    rw [hb] at h
    obtain ⟨rfl, -⟩ := Prod.mk.inj (Except.ok.inj h)
    have hnat : s.client.packetHandler.txSize.toNat = h'.txSize.toNat + 1 := by
      rw [hsize, hq'.size]
      show q.size = (q.size - 1) + 1
      omega
    unfold Thread.flushCall Client.flushBuffer
    rw [hnat, Client.flushLoop, if_neg h0, hb]
    simp only [Option.bind_some]
    cases Client.flushLoop h'.txSize.toNat h' with
    | none => rfl
    | some r =>
      show next _ = next _
      simp only [List.append_assoc, List.singleton_append]

/-- A turn that completes the packet is the last of `_readPacket`. -/
theorem readPacket_end (h : s.readTurn = .ok (s', true)) :
    s'.written = s.written ∧
      ∃ rs, Client.readPacket s.client s.answers = .ok (s'.client, rs, s'.answers) := by
  unfold Shared.readTurn at h
  cases hans : s.answers with
  | nil => rw [hans] at h; cases h
  | cons a answers =>
    rw [hans] at h
    cases ha : a.fed with
    | none => simp only [ha] at h; cases h
    | some c =>
      simp only [ha] at h
      cases hb : rxByte s.client.rx c with
      | none => simp only [hb] at h; cases h
      | some x =>
        simp only [hb] at h
        obtain ⟨rfl, hstatus⟩ := Prod.mk.inj (Except.ok.inj h)
        rw [beq_iff_eq] at hstatus
        refine ⟨rfl, [x.2], ?_⟩
        simp only [Client.readPacket, ha, hb, if_pos hstatus]

/-- A turn that does not, and the others. -/
theorem readPacket_turn (h : s.readTurn = .ok (s', false)) :
    s'.written = s.written ∧
      ∃ pre, Client.readPacket s.client s.answers =
        (Client.readPacket s'.client s'.answers).map fun q => (q.1, pre ++ q.2.1, q.2.2) := by
  unfold Shared.readTurn at h
  cases hans : s.answers with
  | nil => rw [hans] at h; cases h
  | cons a answers =>
    rw [hans] at h
    cases ha : a.fed with
    | none =>
      simp only [ha] at h
      obtain ⟨rfl, -⟩ := Prod.mk.inj (Except.ok.inj h)
      refine ⟨rfl, [], ?_⟩
      simp only [Client.readPacket, ha]
      cases Client.readPacket s.client answers <;> rfl
    | some c =>
      simp only [ha] at h
      cases hb : rxByte s.client.rx c with
      | none => simp only [hb] at h; cases h
      | some x =>
        simp only [hb] at h
        obtain ⟨rfl, hstatus⟩ := Prod.mk.inj (Except.ok.inj h)
        rw [beq_eq_false_iff_ne] at hstatus
        refine ⟨rfl, [x.2], ?_⟩
        simp only [Client.readPacket, ha, hb, if_neg hstatus]
        rfl

theorem readCall_end (h : s.readTurn = .ok (s', true)) : Thread.readCall s = .ok s' := by
  obtain ⟨hw, rs, hr⟩ := readPacket_end h
  rw [Thread.readCall, hr]
  obtain ⟨client, answers, written⟩ := s'
  obtain rfl : written = s.written := hw
  rfl

theorem readCall_turn (h : s.readTurn = .ok (s', false)) :
    Thread.readCall s' = Thread.readCall s := by
  obtain ⟨hw, pre, hr⟩ := readPacket_turn h
  rw [Thread.readCall, Thread.readCall, hr, hw]
  cases Client.readPacket s'.client s'.answers <;> rfl

/-- The waiting loop tests the response behind every packet. -/
theorem awaitCall_end {p : Packet} {timeout : ℕ} (h : s.readTurn = .ok (s', true)) :
    th.awaitCall p (timeout + 1) s =
      if Client.ResponseMatches s'.client p.type p.seq then
        .ok (th.returned (.sent .success p), s')
      else th.awaitCall p timeout s' := by
  obtain ⟨hw, rs, hr⟩ := readPacket_end h
  rw [Thread.awaitCall, awaitResponse_succ hr, Thread.awaitCall, hw]
  split_ifs
  · obtain ⟨client, answers, written⟩ := s'
    obtain rfl : written = s.written := hw
    rfl
  · cases Client.awaitResponse p.type p.seq timeout s'.client s'.answers <;> rfl

theorem awaitCall_turn {p : Packet} {timeout : ℕ} (h : s.readTurn = .ok (s', false)) :
    th.awaitCall p (timeout + 1) s' = th.awaitCall p (timeout + 1) s := by
  obtain ⟨hw, pre, hr⟩ := readPacket_turn h
  rw [Thread.awaitCall, Thread.awaitCall, Client.awaitResponse, Client.awaitResponse, hr, hw]
  cases hq : Client.readPacket s'.client s'.answers with
  | error e => rfl
  | ok q =>
    obtain ⟨cl, rs, rest⟩ := q
    show Except.map _ (if _ then _ else _) = Except.map _ (if _ then _ else _)
    split_ifs
    · rfl
    · cases Client.awaitResponse p.type p.seq timeout cl rest <;> rfl

/-- The deferred call ends with `_sendPacket`. -/
theorem sendCall_deferred {p : Packet} {r : PacketStatus × Packet}
    (h : s.sendPacket p = .ok (s', r)) :
    th.sendCall p 0 s = .ok (th.returned (.sent r.1 r.2), s') := by
  unfold Shared.sendPacket at h
  cases hs : Client.sendPacket s.client p with
  | none => rw [hs] at h; cases h
  | some x =>
    rw [hs] at h
    obtain ⟨rfl, rfl⟩ := Prod.mk.inj (Except.ok.inj h)
    simp only [Thread.sendCall, UlisseClient.sendPacket, hs, if_true, Except.map, List.append_nil]

/-- The blocking call. -/
theorem sendCall_blocking {p : Packet} {timeout : ℤ} (h0 : timeout ≠ 0) :
    th.sendCall p timeout s = th.blockingCall p timeout s := by
  unfold Thread.sendCall Thread.blockingCall UlisseClient.sendPacket Shared.sendPacket
  cases Client.sendPacket s.client p with
  | none => rfl
  | some x =>
    obtain ⟨status, cl, p'⟩ := x
    simp only [if_neg h0]
    split_ifs
    · simp only [Except.map, List.append_nil]
    · unfold Thread.flushCall
      cases Client.flushBuffer cl with
      | none => rfl
      | some y =>
        simp only [Thread.awaitCall]
        cases Client.awaitResponse p'.type p'.seq timeout.toNat y.1 s.answers <;> rfl

/-- Taking a mutex changes nothing. -/
theorem meaning_lock {k : Thread} {m : Mutex} (h : th.program = .lock m k) :
    k.meaning s = th.meaning s := by
  obtain ⟨pc, returns, script⟩ := th
  cases pc with
  | ready =>
    simp only [Thread.program] at h
    cases hcall : script returns with
    | none => rw [hcall] at h; cases h
    | some call =>
      rw [hcall] at h
      cases call with
      | sendPacket p timeout =>
        obtain ⟨rfl, rfl⟩ := Action.lock.inj h
        simp only [Thread.meaning, Thread.goto, hcall]
        by_cases h0 : timeout = 0
        · simp only [h0, if_true]
          rfl
        · simp only [if_neg h0]
          exact (sendCall_blocking h0).symm
      | get type => cases h
      | sync cycles => cases h
  | sendAwait p timeout => cases timeout <;> cases h
  | syncLoop cycles =>
    cases cycles with
    | zero => cases h
    | succ cycles => obtain ⟨rfl, rfl⟩ := Action.lock.inj h; rfl
  | sendLockRead p timeout => obtain ⟨rfl, rfl⟩ := Action.lock.inj h; rfl
  | getLock ops => obtain ⟨rfl, rfl⟩ := Action.lock.inj h; rfl
  | syncLockRead cycles currentSeq => obtain ⟨rfl, rfl⟩ := Action.lock.inj h; rfl
  | _ => cases h

/-- Where a mutex is given back the section is done. -/
theorem meaning_unlock {k : Thread} {m : Mutex} (h : th.program = .unlock m k) :
    th.meaning s = if k.held = ∅ then .ok (k, s) else k.meaning s := by
  obtain ⟨pc, returns, script⟩ := th
  cases pc with
  | ready =>
    simp only [Thread.program] at h
    cases hcall : script returns with
    | none => rw [hcall] at h; cases h
    | some call => rw [hcall] at h; cases call <;> cases h
  | sendAwait p timeout =>
    cases timeout with
    | succ timeout => cases h
    | zero =>
      obtain ⟨rfl, rfl⟩ := Action.unlock.inj h
      exact (if_neg (Finset.singleton_ne_empty _)).symm
  | sendUnlockRead status p =>
    obtain ⟨rfl, rfl⟩ := Action.unlock.inj h
    exact (if_neg (Finset.singleton_ne_empty _)).symm
  | sendUnlockWrite status p =>
    obtain ⟨rfl, rfl⟩ := Action.unlock.inj h
    exact (if_pos rfl).symm
  | getUnlock bytes =>
    obtain ⟨rfl, rfl⟩ := Action.unlock.inj h
    exact (if_pos rfl).symm
  | syncUnlockWrite cycles =>
    obtain ⟨rfl, rfl⟩ := Action.unlock.inj h
    exact (if_pos rfl).symm
  | syncUnlockRead cycles currentSeq =>
    obtain ⟨rfl, rfl⟩ := Action.unlock.inj h
    exact (if_pos rfl).symm
  | syncLoop cycles => cases cycles <;> cases h
  | _ => cases h

/-- Work without a mutex is a section. -/
theorem meaning_free {k : Thread} {f : Shared → Except Stuck (Shared × Thread)}
    (h : th.program = .work f) (hfree : th.held = ∅) (he : f s = .ok (s', k)) :
    th.meaning s = .ok (k, s') := by
  obtain ⟨pc, returns, script⟩ := th
  cases pc with
  | ready =>
    simp only [Thread.program] at h
    cases hcall : script returns with
    | none => rw [hcall] at h; cases h
    | some call =>
      rw [hcall] at h
      cases call with
      | sendPacket p timeout => cases h
      | get type =>
        obtain rfl := Action.work.inj h
        obtain ⟨rfl, rfl⟩ := look_ok he
        simp only [Thread.meaning, hcall]
      | sync cycles =>
        obtain rfl := Action.work.inj h
        obtain ⟨rfl, rfl⟩ := look_ok he
        simp only [Thread.meaning, hcall]
  | syncLoop cycles =>
    cases cycles with
    | zero =>
      obtain rfl := Action.work.inj h
      obtain ⟨rfl, rfl⟩ := look_ok he
      rfl
    | succ cycles => cases h
  | syncSeq cycles =>
    obtain rfl := Action.work.inj h
    obtain ⟨rfl, rfl⟩ := look_ok he
    rfl
  | syncTest cycles currentSeq =>
    obtain rfl := Action.work.inj h
    obtain ⟨rfl, rfl⟩ := look_ok he
    rfl
  | sendDeferred p => exact absurd hfree (Finset.singleton_ne_empty _)
  | sendBlocking p timeout => exact absurd hfree (Finset.insert_ne_empty _ _)
  | sendFlush p timeout => exact absurd hfree (Finset.insert_ne_empty _ _)
  | sendAwait p timeout => exact absurd hfree (Finset.insert_ne_empty _ _)
  | sendTest p timeout => exact absurd hfree (Finset.insert_ne_empty _ _)
  | getCopy ops => exact absurd hfree (Finset.singleton_ne_empty _)
  | syncFlush cycles => exact absurd hfree (Finset.singleton_ne_empty _)
  | syncRead cycles currentSeq => exact absurd hfree (Finset.singleton_ne_empty _)
  | _ => cases h

/-- **Work in a section** leaves what the rest of it comes to. -/
theorem meaning_work {k : Thread} {f : Shared → Except Stuck (Shared × Thread)}
    (h : th.program = .work f) (hbusy : th.held ≠ ∅) (hs : Shared.Good heap fd epoch s)
    (he : f s = .ok (s', k)) : k.meaning s' = th.meaning s := by
  obtain ⟨pc, returns, script⟩ := th
  cases pc with
  | ready => exact absurd rfl hbusy
  | sendDeferred p =>
    obtain rfl := Action.work.inj h
    obtain ⟨r, hr, rfl⟩ := andThen_ok he
    exact (sendCall_deferred hr).symm
  | sendBlocking p timeout =>
    obtain rfl := Action.work.inj h
    obtain ⟨⟨status, p'⟩, hr, rfl⟩ := andThen_ok he
    simp only [Thread.meaning, Thread.goto, Thread.blockingCall, hr]
    split_ifs <;> rfl
  | sendFlush p timeout =>
    obtain rfl := Action.work.inj h
    obtain ⟨r, hr, rfl⟩ := andThen_ok he
    cases r with
    | true => exact (flushCall_end hr).symm
    | false => exact flushCall_turn hs hr
  | sendAwait p timeout =>
    cases timeout with
    | zero => cases h
    | succ timeout =>
      obtain rfl := Action.work.inj h
      obtain ⟨r, hr, rfl⟩ := andThen_ok he
      cases r with
      | true => exact (awaitCall_end hr).symm
      | false => exact awaitCall_turn hr
  | sendTest p timeout =>
    obtain rfl := Action.work.inj h
    obtain ⟨rfl, rfl⟩ := look_ok he
    simp only [Thread.meaning, Thread.goto]
    split_ifs <;> rfl
  | getCopy ops =>
    obtain rfl := Action.work.inj h
    obtain ⟨rfl, rfl⟩ := look_ok he
    rfl
  | syncLoop cycles => exact absurd rfl hbusy
  | syncFlush cycles =>
    obtain rfl := Action.work.inj h
    obtain ⟨r, hr, rfl⟩ := andThen_ok he
    cases r with
    | true => exact (flushCall_end hr).symm
    | false =>
      simp only [Thread.meaning, Thread.goto, Bool.false_eq_true, if_false]
      exact flushCall_turn hs hr
  | syncSeq cycles => exact absurd rfl hbusy
  | syncRead cycles currentSeq =>
    obtain rfl := Action.work.inj h
    obtain ⟨r, hr, rfl⟩ := andThen_ok he
    cases r with
    | true =>
      simp only [Thread.meaning, Thread.goto, readCall_end hr]
      rfl
    | false => exact congrArg (Except.map _) (readCall_turn hr)
  | syncTest cycles currentSeq => exact absurd rfl hbusy
  | _ => cases h

theorem threads_mean (heap : Fin 4 → ℕ) (fd : ℤ) (epoch : UInt16) :
    Means Thread.program Thread.held (Shared.parts heap fd epoch) Thread.meaning where
  lock h _ := meaning_lock h
  work h hbusy hs he := meaning_work h hbusy hs he
  free h hfree _ he := meaning_free h hfree he
  unlock h := meaning_unlock h

/-- **`UlisseClient_get`**: the operations that it reads before it takes the mutex are the ones that
it finds behind it. -/
theorem enterGet_get (hs : Shared.Good heap fd epoch s) (hs' : Shared.Good heap fd epoch s')
    (type : UInt8) :
    th.enterGet type s.client =
        th.returned (.got (s'.client.get type).1 (s'.client.get type).2) ∨
      ∃ ops, th.enterGet type s.client = th.goto (.getLock ops) ∧
        (th.goto (.getLock ops)).meaning s' =
          .ok (th.returned (.got (s'.client.get type).1 (s'.client.get type).2), s') := by
  rw [enterGet_congr type (Good_operations hs hs')]
  unfold Thread.enterGet UlisseClient.get
  by_cases ht : type.toNat < packetTypeMax
  · simp only [dif_pos ht]
    cases s'.client.packetHandler.operations ⟨type.toNat, ht⟩ with
    | none => exact Or.inl rfl
    | some ops => exact Or.inr ⟨ops, rfl, rfl⟩
  · simp only [dif_neg ht]
    exact Or.inl trivial

/-- Work refuses a state only for want of an answer. -/
theorem work_refuses {e : Stuck} {f : Shared → Except Stuck (Shared × Thread)}
    (hs : Shared.Good heap fd epoch s) (hp : th.program = .work f) (hf : f s = .error e) :
    th.pc.Reads ∧ s.answers = [] ∧ e = .blocked := by
  have hread : s.readTurn = .error e → s.answers = [] ∧ e = .blocked := by
    intro he
    rcases Shared.readTurn_good hs with ⟨hnil, he'⟩ | ⟨s', r, he', -⟩
    · rw [he'] at he
      exact ⟨hnil, (Except.error.inj he).symm⟩
    · rw [he'] at he
      cases he
  have hsend : ∀ p, s.sendPacket p ≠ .error e := by
    intro p he
    obtain ⟨s', r, he', -⟩ := Shared.sendPacket_good hs p
    rw [he'] at he
    cases he
  have hflush : s.flushTurn ≠ .error e := by
    intro he
    obtain ⟨s', r, he', -⟩ := Shared.flushTurn_good hs
    rw [he'] at he
    cases he
  obtain ⟨pc, returns, script⟩ := th
  cases pc with
  | ready =>
    simp only [Thread.program] at hp
    cases hcall : script returns with
    | none => rw [hcall] at hp; cases hp
    | some call =>
      rw [hcall] at hp
      cases call with
      | sendPacket p timeout => cases hp
      | get type => obtain rfl := Action.work.inj hp; cases hf
      | sync cycles => obtain rfl := Action.work.inj hp; cases hf
  | sendDeferred p => obtain rfl := Action.work.inj hp; exact absurd (andThen_error hf) (hsend p)
  | sendBlocking p timeout =>
    obtain rfl := Action.work.inj hp
    exact absurd (andThen_error hf) (hsend p)
  | sendFlush p timeout => obtain rfl := Action.work.inj hp; exact absurd (andThen_error hf) hflush
  | sendAwait p timeout =>
    cases timeout with
    | zero => cases hp
    | succ timeout => obtain rfl := Action.work.inj hp; exact ⟨trivial, hread (andThen_error hf)⟩
  | sendTest p timeout => obtain rfl := Action.work.inj hp; cases hf
  | getCopy ops => obtain rfl := Action.work.inj hp; cases hf
  | syncLoop cycles =>
    cases cycles with
    | zero => obtain rfl := Action.work.inj hp; cases hf
    | succ cycles => cases hp
  | syncFlush cycles => obtain rfl := Action.work.inj hp; exact absurd (andThen_error hf) hflush
  | syncSeq cycles => obtain rfl := Action.work.inj hp; cases hf
  | syncRead cycles currentSeq =>
    obtain rfl := Action.work.inj hp
    exact ⟨trivial, hread (andThen_error hf)⟩
  | syncTest cycles currentSeq => obtain rfl := Action.work.inj hp; cases hf
  | _ => cases hp

end Meaning

/-! ## Threads -/

/-- Threads with these scripts before their first call; nobody holds a mutex. -/
def startWorld {T : Type} (cl : UlisseClient) (answers : List ReadAnswer)
    (scripts : T → List ThreadReturn → Option ThreadCall) : World Mutex Shared Thread T :=
  ⟨fun _ => none, ⟨cl, answers, []⟩, fun t => ⟨.ready, [], scripts t⟩⟩

instance : WellFoundedGT Mutex :=
  ⟨Subrelation.wf (fun {a b} (h : b < a) => by
    have hlt : b.rank < a.rank := h
    show 1 - a.rank < 1 - b.rank
    cases a <;> cases b <;> simp_all [Mutex.rank]) (measure fun m : Mutex => 1 - m.rank).wf⟩

section Threads

variable {T : Type} [DecidableEq T] {heap : Fin 4 → ℕ} {cl : UlisseClient}
  {answers : List ReadAnswer} {scripts : T → List ThreadReturn → Option ThreadCall}
  {schedule : List T} {os : List Unit} {w : World Mutex Shared Thread T}

omit [DecidableEq T] in
theorem startWorld_good (h : ClientReachable heap cl) :
    Shared.Good heap cl.fd cl.endEpochSeq (startWorld cl answers scripts).shared := by
  obtain ⟨ph, q, hcl⟩ := h.at
  exact ⟨⟨ph, q, hcl⟩, rfl, rfl⟩

omit [DecidableEq T] in
theorem startWorld_quiet : Quiet Thread.held (startWorld cl answers scripts) :=
  ⟨fun _ => rfl, fun _ => rfl⟩

/-- **One after another**: after any schedule there is an order of the schedule's in which the
sections, run by the client's functions in one go, lead every thread outside of its sections to
where it is, the halves whose mutexes are free to what they are, and the client to what it is when
both are. -/
theorem threads_serial (h : ClientReachable heap cl) (answers : List ReadAnswer)
    (scripts : T → List ThreadReturn → Option ThreadCall)
    (hrun : run (step Thread.program) (startWorld cl answers scripts) schedule = some (w, os)) :
    ∃ order c a os', order.Sublist schedule ∧
      run (sectionStep Thread.meaning) ((startWorld cl answers scripts).pc,
        (startWorld cl answers scripts).shared) order = some ((c, a), os') ∧
      (∀ t, (w.pc t).held = ∅ → c t = w.pc t) ∧
      (∀ m, w.owner m = none → a.half m = w.shared.half m) ∧
      ((∀ m, w.owner m = none) → a = w.shared) := by
  have hd := threads_disciplined heap cl.fd cl.endEpochSeq
  have hgood : Shared.Good heap cl.fd cl.endEpochSeq (startWorld cl answers scripts).shared :=
    startWorld_good h
  obtain ⟨order, c, a, hsub, hser, hpc, hparts, hall⟩ :=
    serializable hd startWorld_quiet hgood hrun
  obtain ⟨⟨os', hrun'⟩, -⟩ := hser.run (threads_mean heap cl.fd cl.endEpochSeq) hd hgood
  exact ⟨order, c, a, os', hsub, hrun', hpc, hparts, hall⟩

/-- One thread sends, the other looks at the last joint status. -/
def twoScripts (timeout : ℤ) : Bool → List ThreadReturn → Option ThreadCall
  | false, [] => some (.sendPacket jointControl timeout)
  | true, [] => some (.get jointStatusPacketId)
  | _, _ => none

/-- Both calls at once. -/
theorem threads_serial_two :
    ∃ (w : World Mutex Shared Thread Bool) (os : List Unit),
      run (step Thread.program) (startWorld startedClient [] (twoScripts 0))
        [false, true, true, false, true, false, true] = some (w, os) ∧
      ∃ order c a os', List.Sublist order [false, true, true, false, true, false, true] ∧
        run (sectionStep Thread.meaning) ((startWorld startedClient [] (twoScripts 0)).pc,
          (startWorld startedClient [] (twoScripts 0)).shared) order = some ((c, a), os') ∧
        (∀ t, (w.pc t).held = ∅ → c t = w.pc t) ∧
        (∀ m, w.owner m = none → a.half m = w.shared.half m) ∧
        ((∀ m, w.owner m = none) → a = w.shared) := by
  have hdef : (run (step Thread.program) (startWorld startedClient [] (twoScripts 0))
      [false, true, true, false, true, false, true]).isSome := by decide +kernel
  obtain ⟨⟨w, os⟩, hrun⟩ := Option.isSome_iff_exists.mp hdef
  exact ⟨w, os, hrun, threads_serial (.start startedClient_started) [] (twoScripts 0) hrun⟩

/-- **No deadlock**: after any schedule a thread that still has something to do waits, by way of the
mutexes' holders, for one that can go on, or for one that reads the port when there is no answer
left. -/
theorem threads_progress (h : ClientReachable heap cl) (answers : List ReadAnswer)
    (scripts : T → List ThreadReturn → Option ThreadCall)
    (hrun : run (step Thread.program) (startWorld cl answers scripts) schedule = some (w, os))
    {t : T} (ht : (w.pc t).program ≠ .done) :
    ∃ u, Relation.ReflTransGen (WaitsFor Thread.program w) t u ∧
      ((step Thread.program w u).isSome ∨ ((w.pc u).pc.Reads ∧ w.shared.answers = [])) := by
  have hd := threads_disciplined heap cl.fd cl.endEpochSeq
  have hgood : Shared.Good heap cl.fd cl.endEpochSeq (startWorld cl answers scripts).shared :=
    startWorld_good h
  have hsound := run_sound hd (startWorld_quiet.sound hgood) hrun
  obtain ⟨u, hwait, hmove | ⟨e, he⟩⟩ := waits_for hd hsound ht
  · exact ⟨u, hwait, Or.inl hmove⟩
  · obtain ⟨f, hp, hf⟩ := he
    obtain ⟨hreads, hnil, -⟩ := work_refuses hsound.good hp hf
    exact ⟨u, hwait, Or.inr ⟨hreads, hnil⟩⟩

/-- The thread that looks waits for the one that sends, and that for a byte. -/
theorem threads_progress_two :
    ∃ (w : World Mutex Shared Thread Bool) (os : List Unit),
      run (step Thread.program) (startWorld startedClient [] (twoScripts 1))
        (List.replicate 23 false ++ [true]) = some (w, os) ∧
      ∃ u, Relation.ReflTransGen (WaitsFor Thread.program w) true u ∧
        ((step Thread.program w u).isSome ∨ ((w.pc u).pc.Reads ∧ w.shared.answers = [])) := by
  have hdef : (run (step Thread.program) (startWorld startedClient [] (twoScripts 1))
      (List.replicate 23 false ++ [true])).map (fun r => match (r.1.pc true).program with
        | .done => false
        | _ => true) = some true := by decide +kernel
  obtain ⟨⟨w, os⟩, hrun, hbusy⟩ := Option.map_eq_some_iff.mp hdef
  refine ⟨w, os, hrun, threads_progress (.start startedClient_started) [] (twoScripts 1) hrun ?_⟩
  intro hdone
  simp only [hdone] at hbusy
  cases hbusy

/-- What the threads owe to the mutexes, and to each other. -/
structure Orderly (w : World Mutex Shared Thread T) : Prop where
  holder : ∀ m t u, m ∈ (w.pc t).held → m ∈ (w.pc u).held → t = u
  unlock : ∀ t m k, (w.pc t).program = .unlock m k → w.owner m = some t
  lock : ∀ t m k, (w.pc t).program = .lock m k → w.owner m ≠ some t
  work : ∀ t u f g s s' k k', t ≠ u → (w.pc t).program = .work f → (w.pc u).program = .work g →
    f w.shared = .ok (s, k) → g w.shared = .ok (s', k') →
    ∃ x, g s = .ok (x, k') ∧ f s' = .ok (x, k)

/-- **No misuse and no race**: after any schedule a mutex has one holder, a thread gives back only what
it holds and takes nothing that it holds, and two threads that can work at the same time come to the
same, whichever goes first. -/
theorem threads_orderly (h : ClientReachable heap cl) (answers : List ReadAnswer)
    (scripts : T → List ThreadReturn → Option ThreadCall)
    (hrun : run (step Thread.program) (startWorld cl answers scripts) schedule = some (w, os)) :
    Orderly w := by
  have hd := threads_disciplined heap cl.fd cl.endEpochSeq
  have hgood : Shared.Good heap cl.fd cl.endEpochSeq (startWorld cl answers scripts).shared :=
    startWorld_good h
  have hsound := run_sound hd (startWorld_quiet.sound hgood) hrun
  refine ⟨fun m t u => hsound.holder, fun t m k hp => (hsound.owner m t).mpr (hd.unlock_next hp).1,
    fun t m k hp hown => ?_,
    fun t u f g s s' k k' hne hf hg hs hs' => work_comm hd hsound hne hf hg hs hs'⟩
  exact lt_irrefl m ((hd.lock_next hp).1 m ((hsound.owner m t).mp hown))

/-- While one thread sends and the other looks. -/
theorem threads_orderly_two :
    ∃ (w : World Mutex Shared Thread Bool) (os : List Unit),
      run (step Thread.program) (startWorld startedClient [] (twoScripts 0)) [false, true, true] =
        some (w, os) ∧ Orderly w := by
  have hdef : (run (step Thread.program) (startWorld startedClient [] (twoScripts 0))
      [false, true, true]).isSome := by decide +kernel
  obtain ⟨⟨w, os⟩, hrun⟩ := Option.isSome_iff_exists.mp hdef
  exact ⟨w, os, hrun, threads_orderly (.start startedClient_started) [] (twoScripts 0) hrun⟩

end Threads

end Ulisse
