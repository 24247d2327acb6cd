import Ulisse.Client.Rules
import Ulisse.Handler.TxQueue

/-!
# Client.Port — loops that do not look at what the port answers

The loops of `_flushBuffer` and `_readPacket`, turn by turn, with the answers of `write` and `read`
as inputs.  `_flushBuffer` takes a byte out of the ring before it is written and drops the result of
`write`; `_readPacket` only asks whether the result of `read` is zero, and so feeds the handler a
byte that was not read when it is `-1`.
-/

namespace Ulisse

open BlockMem Run

/-! ## Flushing -/

/-- What `write` of one byte answers: `1`, or `0` or `-1` for a byte that was not taken. -/
inductive WriteAnswer where
  | accepted
  | refused
  | error
  deriving DecidableEq, Repr

/-- The bytes taken. -/
def WriteAnswer.count : WriteAnswer → ℕ
  | .accepted => 1
  | .refused => 0
  | .error => 0

/-- A point of `_flushBuffer`: the handler, and how many bytes `write` has taken. -/
structure FlushState where
  h : PacketHandler Obj.size
  accepted : ℕ

/-- The bytes taken and the bytes still in the ring. -/
def FlushState.total (s : FlushState) : ℤ := s.accepted + s.h.txSize

/-- One turn of the loop of `_flushBuffer`, and the point between `txByte` and `write` in it; when
the ring is empty the loop has ended. -/
def flushTurn (s : FlushState) (a : WriteAnswer) : Option (FlushState × Option FlushState) :=
  if s.h.txSize = 0 then some (s, none)
  else s.h.txByte.map fun x => (⟨x.1, s.accepted + a.count⟩, some ⟨x.1, s.accepted⟩)

/-- Whenever the loop tests `tx_size`, no byte of the ring is lost. -/
def ConservedAtTests (h : PacketHandler Obj.size) (answers : List WriteAnswer) : Prop :=
  ∀ pre post t os, answers = pre ++ post → run flushTurn ⟨h, 0⟩ pre = some (t, os) →
    t.total = h.txSize

/-- Nor is one missing between `txByte` and `write`. -/
def ConservedBetween (h : PacketHandler Obj.size) (answers : List WriteAnswer) : Prop :=
  ∀ t os, run flushTurn ⟨h, 0⟩ answers = some (t, os) → ∀ s, some s ∈ os → s.total = h.txSize

section Flush

variable {h h' : PacketHandler Obj.size} {q : RingQueue UInt8 packetSizeMax} {s : FlushState}
  {answers : List WriteAnswer}

/-- **One turn** takes one byte out of the ring, whether it is accepted or not. -/
theorem flushTurn_ring (hq : RingAt s.h q) (hpos : 0 < q.size) (a : WriteAnswer) :
    ∃ h', flushTurn s a = some (⟨h', s.accepted + a.count⟩, some ⟨h', s.accepted⟩) ∧
      RingAt h' (q.pop hpos) := by
  obtain ⟨h', hb, hq'⟩ := txByte_ring hq hpos
  have hne : ¬ s.h.txSize = 0 := by
    rw [hq.size]
    omega
  exact ⟨h', by rw [flushTurn, if_neg hne, hb]; rfl, hq'⟩

theorem flushTurn_empty (hq : RingAt s.h q) (h0 : q.size = 0) (a : WriteAnswer) :
    flushTurn s a = some (s, none) := by
  rw [flushTurn, if_pos (by rw [hq.size, h0]; rfl)]

/-- Nothing more is written when the ring is empty. -/
theorem flushRun_empty (hq : RingAt s.h q) (h0 : q.size = 0) (answers : List WriteAnswer) :
    run flushTurn s answers = some (s, List.replicate answers.length none) := by
  induction answers with
  | nil => rfl
  | cons a as ih =>
    rw [run_cons_of (flushTurn_empty hq h0 a), ih]
    rfl

/-- The first answers are those to the bytes of the ring. -/
theorem take_concat_count (n : ℕ) (as : List WriteAnswer) (a : WriteAnswer) :
    (((as ++ [a]).take n).map WriteAnswer.count).sum =
      ((as.take n).map WriteAnswer.count).sum + if as.length < n then a.count else 0 := by
  rw [List.take_append, List.map_append, List.sum_append]
  congr 1
  split_ifs with hn
  · rw [List.take_of_length_le (by rw [List.length_singleton]; omega)]
    simp
  · rw [show n - as.length = 0 by omega]
    rfl

/-- **Turns**: after `n` answers `n` bytes have left the ring, if it held as many, and those are
taken that were answered so. -/
theorem flushRun_ring (hq : RingAt h q) (answers : List WriteAnswer) :
    ∃ t os q', run flushTurn ⟨h, 0⟩ answers = some (t, os) ∧ RingAt t.h q' ∧
      q'.size = q.size - answers.length ∧
      t.accepted = ((answers.take q.size).map WriteAnswer.count).sum := by
  induction answers using List.reverseRecOn with
  | nil => exact ⟨⟨h, 0⟩, [], q, rfl, hq, rfl, by simp⟩
  | append_singleton as a ih =>
    obtain ⟨t, os, q₁, hrun, hq₁, hsize, hacc⟩ := ih
    rw [List.length_append, List.length_singleton, take_concat_count]
    by_cases hlt : as.length < q.size
    · obtain ⟨h', hturn, hq'⟩ := flushTurn_ring (s := t) hq₁ (by omega) a
      refine ⟨_, _, _, run_append_of hrun (run_singleton hturn), hq', ?_, ?_⟩
      · show q₁.size - 1 = _
        omega
      · rw [if_pos hlt, ← hacc]
    · have hturn := flushTurn_empty (s := t) hq₁ (by omega) a
      refine ⟨t, _, q₁, run_append_of hrun (run_singleton hturn), hq₁, by omega, ?_⟩
      rw [if_neg hlt, ← hacc, Nat.add_zero]

/-- **Total**: the bytes of the ring that were not accepted when their turn came are missing. -/
theorem flushRun_total (hq : RingAt h q) {t : FlushState} {os : List (Option FlushState)}
    (hrun : run flushTurn ⟨h, 0⟩ answers = some (t, os)) :
    t.total = ((answers.take q.size).map WriteAnswer.count).sum +
      (q.size - answers.length : ℕ) := by
  obtain ⟨t', os', q', hrun', hq', hleft, hacc⟩ := flushRun_ring hq answers
  obtain ⟨rfl, -⟩ := result_unique hrun hrun'
  rw [FlushState.total, hacc, hq'.size, hleft]

/-- The turns are those of `_flushBuffer`: they end with the same handler. -/
theorem flushLoop_turns {n k : ℕ} {values : List (Option UInt8)}
    (hf : Client.flushLoop n h = some (h', values)) (hlen : answers.length = values.length) :
    ∃ t os, run flushTurn ⟨h, k⟩ answers = some (t, os) ∧ t.h = h' := by
  induction n generalizing h k values answers with
  | zero =>
    rw [Client.flushLoop] at hf
    split_ifs at hf
    obtain ⟨rfl, rfl⟩ := result_unique rfl hf
    rw [List.eq_nil_of_length_eq_zero hlen]
    exact ⟨_, _, rfl, rfl⟩
  | succ n ih =>
    rw [Client.flushLoop] at hf
    split_ifs at hf with h0
    · obtain ⟨rfl, rfl⟩ := result_unique rfl hf
      rw [List.eq_nil_of_length_eq_zero hlen]
      exact ⟨_, _, rfl, rfl⟩
    · obtain ⟨⟨h₁, v⟩, hb, hf⟩ := Option.bind_eq_some_iff.mp hf
      obtain ⟨⟨h₂, vs⟩, hf₂, he⟩ := Option.map_eq_some_iff.mp hf
      simp only [Prod.mk.injEq] at he
      obtain ⟨rfl, rfl⟩ := he
      cases answers with
      | nil => cases hlen
      | cons a as =>
        obtain ⟨t, os, hrun, ht⟩ := ih (k := k + a.count) hf₂ (Nat.succ.inj hlen)
        have hturn : flushTurn ⟨h, k⟩ a = some (⟨h₁, k + a.count⟩, some ⟨h₁, k⟩) := by
          rw [flushTurn, if_neg h0, hb]
          rfl
        exact ⟨t, _, by rw [run_cons_of hturn, hrun]; rfl, ht⟩

theorem count_le (a : WriteAnswer) : a.count ≤ 1 := by
  cases a <;> decide

theorem count_eq_one {a : WriteAnswer} (h : a.count = 1) : a = .accepted := by
  cases a with
  | accepted => rfl
  | _ => cases h

theorem sum_count_le (as : List WriteAnswer) : (as.map WriteAnswer.count).sum ≤ as.length := by
  induction as with
  | nil => exact Nat.le_refl 0
  | cons a as ih =>
    have ha := count_le a
    rw [List.map_cons, List.sum_cons, List.length_cons]
    omega

/-- As many bytes taken as answers given: all were accepted. -/
theorem all_accepted {as : List WriteAnswer} :
    (as.map WriteAnswer.count).sum = as.length ↔ ∀ a ∈ as, a = .accepted := by
  induction as with
  | nil => simp
  | cons a as ih =>
    have hle := sum_count_le as
    have ha := count_le a
    rw [List.map_cons, List.sum_cons, List.length_cons, List.forall_mem_cons, ← ih]
    constructor
    · intro h
      exact ⟨count_eq_one (by omega), by omega⟩
    · rintro ⟨rfl, h⟩
      rw [h, WriteAnswer.count, Nat.add_comm]

end Flush

/-- **Flushing loses no byte** exactly if every write that is made is accepted: whenever the loop
tests `tx_size`, what was accepted and what is queued make up what was queued at the start.  Between
`txByte` and `write` a byte is missing in every turn. -/
theorem flush_conserves_iff {h : PacketHandler Obj.size} {q : RingQueue UInt8 packetSizeMax}
    (hq : RingAt h q) (answers : List WriteAnswer) :
    (∃ t os, run flushTurn ⟨h, 0⟩ answers = some (t, os)) ∧
      (ConservedAtTests h answers ↔ ∀ a ∈ answers.take h.txSize.toNat, a = .accepted) ∧
      (ConservedBetween h answers ↔ h.txSize = 0 ∨ answers = []) := by
  have hn : h.txSize.toNat = q.size := by
    rw [hq.size]
    rfl
  have hsize := hq.size
  obtain ⟨t, os, -, hrun, -⟩ := flushRun_ring hq answers
  refine ⟨⟨t, os, hrun⟩, ?_, ?_⟩
  · rw [hn]
    constructor
    · intro hcons
      -- the point at which the answers or the bytes are used up
      obtain ⟨t, os, -, hrun, -⟩ := flushRun_ring hq (answers.take q.size)
      have hpoint := hcons _ (answers.drop q.size) t os (List.take_append_drop _ _).symm hrun
      rw [flushRun_total hq hrun, List.take_take, Nat.min_self, List.length_take, hsize] at hpoint
      refine all_accepted.mp ?_
      rw [List.length_take]
      omega
    · intro hall pre post t os hsplit hrun
      have hpre : ((pre.take q.size).map WriteAnswer.count).sum = (pre.take q.size).length := by
        refine all_accepted.mpr fun a ha => hall a ?_
        rw [hsplit, List.take_append]
        exact List.mem_append_left _ ha
      rw [flushRun_total hq hrun, hpre, List.length_take, hsize]
      omega
  · cases answers with
    | nil =>
      refine iff_of_true ?_ (Or.inr rfl)
      intro u us hrun' s hs
      obtain ⟨-, rfl⟩ := run_nil_some hrun'
      cases hs
    | cons a as =>
      obtain ⟨t₁, o, os₁, hturn, -, rfl⟩ := run_cons_some.mp hrun
      rcases Nat.eq_zero_or_pos q.size with h0 | hpos
      · -- the loop ends at its first test
        refine iff_of_true ?_ (Or.inl (by omega))
        intro u us hrun' s hs
        obtain ⟨-, rfl⟩ := result_unique hrun' (flushRun_empty (s := ⟨h, 0⟩) hq h0 (a :: as))
        simp at hs
      · obtain ⟨h', hturn', hq'⟩ := flushTurn_ring (s := ⟨h, 0⟩) hq hpos a
        obtain ⟨-, rfl⟩ := result_unique hturn hturn'
        refine iff_of_false (fun hcons => ?_) (by rintro (h0 | h0) <;> [omega; cases h0])
        have hpoint := hcons t _ hrun ⟨h', 0⟩ (by simp)
        have hleft : h'.txSize = ((q.size - 1 : ℕ) : ℤ) := hq'.size
        simp only [FlushState.total, hleft] at hpoint
        omega

/-- A handler with the frame of a bare header in its ring. -/
def queuedHandler : PacketHandler Obj.size :=
  ((zeroHandler.initialized.sendPacket bareHeader).map Prod.snd).getD zeroHandler

theorem queuedHandler_ring : ∃ q, RingAt queuedHandler q := by
  rcases sendPacket_ring (initialized_ring (zeroHandler : PacketHandler Obj.size)) bareHeader with
    ⟨hfull, -⟩ | ⟨-, h', q', hs, hq', -⟩
  · exact absurd hfull (by decide)
  · refine ⟨q', ?_⟩
    rw [queuedHandler, hs]
    exact hq'

/-- A port that takes everything gets the frame. -/
theorem flush_conserves_iff_accepting :
    ConservedAtTests queuedHandler (List.replicate 7 .accepted) := by
  obtain ⟨q, hq⟩ := queuedHandler_ring
  exact (flush_conserves_iff hq (List.replicate 7 .accepted)).2.1.mpr (by decide +kernel)

/-- A port that takes nothing leaves the ring empty all the same. -/
theorem flush_counterexample :
    (∃ q, RingAt queuedHandler q) ∧ queuedHandler.txSize = 7 ∧
    (run flushTurn ⟨queuedHandler, 0⟩ (List.replicate 7 .refused)).map
      (fun x => (x.1.accepted, x.1.h.txSize)) = some (0, 0) ∧
    ¬ ConservedAtTests queuedHandler (List.replicate 7 .refused) := by
  have hlost : (run flushTurn ⟨queuedHandler, 0⟩ (List.replicate 7 .refused)).map
      (fun x => (x.1.accepted, x.1.h.txSize)) = some (0, 0) := by decide +kernel
  refine ⟨queuedHandler_ring, by decide +kernel, hlost, fun hcons => ?_⟩
  obtain ⟨⟨t, os⟩, hrun, he⟩ := Option.map_eq_some_iff.mp hlost
  simp only [Prod.mk.injEq] at he
  have hpoint := hcons _ [] t os (List.append_nil _).symm hrun
  rw [FlushState.total, he.1, he.2] at hpoint
  exact absurd hpoint (by decide +kernel)

/-! ## Reading -/

/-- The byte that `read` put into `c`, if it read one. -/
def ReadAnswer.read? : ReadAnswer → Option UInt8
  | .byte c => some c
  | _ => none

/-- A point of `_readPacket`: the client and `packet_complete`. -/
structure ReadState where
  client : UlisseClient
  complete : Bool

/-- One turn of the loop of `_readPacket`, with the handler's answer if it is fed: `fed` says which
byte, if any, an answer of `read` feeds.  When the packet is complete the loop has ended. -/
def readTurn (fed : ReadAnswer → Option UInt8) (s : ReadState) (a : ReadAnswer) :
    Option (ReadState × Option (RxReturn Obj.size)) :=
  if s.complete then some (s, none)
  else match fed a with
    | none => some (s, none)
    | some c => (rxByte s.client.rx c).map fun x =>
        (⟨s.client.setRx x.1, decide (x.2.status = .syncChecksum)⟩, some x.2)

/-- At every point of `_readPacket` the client and the flag are those that only the bytes that were
read lead to. -/
def FeedsOnlyRead (cl : UlisseClient) (answers : List ReadAnswer) : Prop :=
  ∀ pre post, answers = pre ++ post →
    (run (readTurn ReadAnswer.fed) ⟨cl, false⟩ pre).map Prod.fst =
      (run (readTurn ReadAnswer.read?) ⟨cl, false⟩ pre).map Prod.fst

/-- An error of `read` is not seen by the handler: it comes when the packet is complete, or when
`_rxAA` waits and `c` holds something else than `0xAA`. -/
def ErrorUnseen (s : ReadState) : ReadAnswer → Prop
  | .error held => s.complete = true ∨ (s.client.packetHandler.rxFn = .rxAA ∧ held ≠ 0xAA)
  | _ => True

section Read

variable {cl cl' : UlisseClient} {s : ReadState} {a : ReadAnswer} {answers rest : List ReadAnswer}

/-- **Only a byte that `_rxAA` skips has no effect**: every other one moves `rxFn` or the
countdown. -/
theorem rxByte_same {β : Type} [DecidableEq β] {len : β → ℕ} {s : RxState len} {c : UInt8}
    {r : RxReturn len} (he : rxByte s c = some (s, r)) : s.h.rxFn = .rxAA ∧ c ≠ 0xAA := by
  have hmoved : ∀ {s'}, rxByte s c = some (s', r) → s'.h.rxFn = s.h.rxFn →
      s'.h.rxBytesToRead = s.h.rxBytesToRead → s.h.rxFn = .rxAA ∧ c ≠ 0xAA := by
    intro s' he hfn' hn'
    cases rxByte_step he with
    | lostAA hfn hc => exact ⟨hfn, hc⟩
    | syncPayload p m hfn hp h1 hn =>
      have hcount := congrArg UInt8.toNat (show s.h.rxBytesToRead - 1 = s.h.rxBytesToRead from hn')
      have hlt := s.h.rxBytesToRead.toNat_lt
      rw [UInt8.toNat_sub, UInt8.toNat_one] at hcount
      omega
    | _ => simp_all
  exact hmoved he rfl rfl

theorem rxByte_skipped {s : RxState Obj.size} {c : UInt8} (hfn : s.h.rxFn = .rxAA)
    (hc : c ≠ 0xAA) : rxByte s c = some (s, ⟨.unsync, []⟩) := by
  simp only [rxByte, hfn, rxAA, if_neg hc]

/-- The turns with what is fed and with what is read differ in errors only. -/
theorem readTurn_eq (h : ∀ held, a ≠ .error held) :
    readTurn ReadAnswer.fed s a = readTurn ReadAnswer.read? s a := by
  cases a with
  | error held => exact absurd rfl (h held)
  | _ => rfl

/-- An error that is not fed changes nothing. -/
theorem readTurn_error (held : UInt8) :
    readTurn ReadAnswer.read? s (.error held) = some (s, none) := by
  unfold readTurn
  split_ifs <;> rfl

/-- **An error that is fed** changes nothing exactly if it is not seen. -/
theorem readTurn_fed (held : UInt8) :
    (readTurn ReadAnswer.fed s (.error held)).map Prod.fst = some s ↔
      ErrorUnseen s (.error held) := by
  obtain ⟨cl, complete⟩ := s
  cases complete with
  | true => exact iff_of_true rfl (Or.inl rfl)
  | false =>
    show ((rxByte cl.rx held).map _).map Prod.fst = _ ↔ _
    rw [Option.map_map]
    constructor
    · intro h
      obtain ⟨⟨t, r⟩, he, hx⟩ := Option.map_eq_some_iff.mp h
      simp only [Function.comp_apply, ReadState.mk.injEq] at hx
      obtain ⟨hcl, -⟩ := hx
      have ht : t = cl.rx := by
        rw [← hcl]
        rfl
      rw [ht] at he
      exact Or.inr (rxByte_same he)
    · rintro (h | ⟨hfn, hc⟩)
      · cases h
      · rw [rxByte_skipped hfn hc]
        rfl

/-- **Agreement**: as long as errors are not seen, what is fed and what is read lead to the same. -/
theorem readRun_agree
    (hunseen : Along (readTurn ReadAnswer.fed) (fun _ _ => ErrorUnseen) s answers) :
    (run (readTurn ReadAnswer.fed) s answers).map Prod.fst =
      (run (readTurn ReadAnswer.read?) s answers).map Prod.fst := by
  induction answers using List.reverseRecOn with
  | nil => rfl
  | append_singleton as a ih =>
    have hprev := ih hunseen.left
    rw [run_append, run_append]
    cases h1 : run (readTurn ReadAnswer.fed) s as with
    | none =>
      rw [h1] at hprev
      rw [Option.map_eq_none_iff.mp hprev.symm]
      rfl
    | some x =>
      obtain ⟨t, os⟩ := x
      rw [h1] at hprev
      obtain ⟨⟨t', os'⟩, h2, ht⟩ := Option.map_eq_some_iff.mp hprev.symm
      obtain rfl : t' = t := ht
      rw [h2]
      simp only [Option.bind_some, run_cons, run_nil, Option.map_some]
      have hstep : (readTurn ReadAnswer.fed t' a).map Prod.fst =
          (readTurn ReadAnswer.read? t' a).map Prod.fst := by
        by_cases herr : ∃ held, a = .error held
        · obtain ⟨held, rfl⟩ := herr
          rw [readTurn_error]
          exact (readTurn_fed held).mpr (hunseen.last h1)
        · rw [readTurn_eq fun held h => herr ⟨held, h⟩]
      cases h3 : readTurn ReadAnswer.fed t' a <;> cases h4 : readTurn ReadAnswer.read? t' a <;>
        rw [h3, h4] at hstep <;> simp_all

/-- `_readPacket` returns with the client that the turns lead to when the flag is set. -/
theorem readPacket_turns {rs : List (RxReturn Obj.size)}
    (h : Client.readPacket cl answers = .ok (cl', rs, rest)) :
    ∃ pre os, answers = pre ++ rest ∧
      run (readTurn ReadAnswer.fed) ⟨cl, false⟩ pre = some (⟨cl', true⟩, os) := by
  induction answers generalizing cl rs with
  | nil => cases h
  | cons a as ih =>
    cases ha : a.fed with
    | none =>
      simp only [Client.readPacket, ha] at h
      have hturn : readTurn ReadAnswer.fed ⟨cl, false⟩ a = some (⟨cl, false⟩, none) := by
        simp only [readTurn, ha, Bool.false_eq_true, if_false]
      obtain ⟨pre, os, rfl, hrun⟩ := ih h
      exact ⟨a :: pre, _, rfl, by rw [run_cons_of hturn, hrun]; rfl⟩
    | some c =>
      simp only [Client.readPacket, ha] at h
      cases he : rxByte cl.rx c with
      | none =>
        simp only [he] at h
        cases h
      | some x =>
        obtain ⟨t, r⟩ := x
        simp only [he] at h
        have hturn : readTurn ReadAnswer.fed ⟨cl, false⟩ a =
            some (⟨cl.setRx t, decide (r.status = .syncChecksum)⟩, some r) := by
          simp only [readTurn, ha, he, Bool.false_eq_true, if_false]
          rfl
        split_ifs at h with hs
        · simp only [Except.ok.injEq, Prod.mk.injEq] at h
          obtain ⟨rfl, -, rfl⟩ := h
          rw [decide_eq_true hs] at hturn
          exact ⟨[a], _, rfl, run_singleton hturn⟩
        · rw [decide_eq_false hs] at hturn
          cases hr : Client.readPacket (cl.setRx t) as with
          | error e =>
            rw [hr] at h
            cases h
          | ok y =>
            rw [hr] at h
            simp only [Except.map, Except.ok.injEq, Prod.mk.injEq] at h
            obtain ⟨rfl, -, rfl⟩ := h
            obtain ⟨pre, os, rfl, hrun⟩ := ih hr
            exact ⟨a :: pre, _, rfl, by rw [run_cons_of hturn, hrun]; rfl⟩

end Read

/-- **Only what was read is fed**, at every point, exactly if no error comes at a time when the
handler is in the middle of something: every `-1` finds the packet complete, or finds `_rxAA`
waiting and something else than `0xAA` left in `c`. -/
theorem feedsOnlyRead_iff (cl : UlisseClient) (answers : List ReadAnswer) :
    FeedsOnlyRead cl answers ↔
      Along (readTurn ReadAnswer.fed) (fun _ _ => ErrorUnseen) ⟨cl, false⟩ answers := by
  constructor
  · intro honly pre a post t os hsplit hrun
    by_cases herr : ∃ held, a = .error held
    · obtain ⟨held, rfl⟩ := herr
      refine (readTurn_fed held).mp ?_
      -- the runs agree in front of the error and behind it
      have hbefore := honly pre (.error held :: post) hsplit
      have hafter := honly (pre ++ [.error held]) post (by rw [hsplit]; simp)
      rw [hrun] at hbefore
      obtain ⟨⟨t', os'⟩, hrun', ht⟩ := Option.map_eq_some_iff.mp hbefore.symm
      obtain rfl : t' = t := ht
      rw [run_append, run_append, hrun, hrun'] at hafter
      simp only [Option.bind_some, run_cons, readTurn_error, run_nil, Option.map_some] at hafter
      cases hturn : readTurn ReadAnswer.fed t' (.error held) with
      | none =>
        rw [hturn] at hafter
        cases hafter
      | some x =>
        rw [hturn] at hafter
        exact hafter
    · cases a with
      | error held => exact absurd ⟨held, rfl⟩ herr
      | _ => trivial
  · intro hunseen pre post hsplit
    rw [hsplit] at hunseen
    exact readRun_agree hunseen.left

/-- The frame of a joint status with an error among the bytes of its payload. -/
def interruptedAnswers : List ReadAnswer :=
  (jointStatusFrame.take 10).map .byte ++ [.error 0] ++ (jointStatusFrame.drop 10).map .byte

/-- The byte that was not read takes the place of one of the payload, and the frame is lost. -/
theorem feedsOnlyRead_counterexample :
    Started (fun i => i.val) startedClient ∧
    (run (readTurn ReadAnswer.read?) ⟨startedClient, false⟩ interruptedAnswers).map
      (fun x => x.1.complete) = some true ∧
    (run (readTurn ReadAnswer.fed) ⟨startedClient, false⟩ interruptedAnswers).map
      (fun x => x.1.complete) = some false ∧
    ¬ FeedsOnlyRead startedClient interruptedAnswers := by
  have hread : (run (readTurn ReadAnswer.read?) ⟨startedClient, false⟩ interruptedAnswers).map
      (fun x => x.1.complete) = some true := by decide +kernel
  have hfed : (run (readTurn ReadAnswer.fed) ⟨startedClient, false⟩ interruptedAnswers).map
      (fun x => x.1.complete) = some false := by decide +kernel
  refine ⟨startedClient_started, hread, hfed, fun honly => ?_⟩
  have hend := congrArg (Option.map ReadState.complete)
    (honly interruptedAnswers [] (List.append_nil _).symm)
  simp only [Option.map_map] at hend
  exact absurd (hfed.symm.trans (hend.trans hread)) (by decide)

end Ulisse
