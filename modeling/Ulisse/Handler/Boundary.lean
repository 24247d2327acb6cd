import Ulisse.Handler.RxRuns

/-!
# Handler.Boundary — a frame boundary erases history

Behind an error status and behind `SyncChecksum` the receiver hunts.  What is left of earlier frames
(operation, packet, countdown and the bytes in the buffers) is rewritten before it is read: two
receivers in the same phase stay in the same phase and answer alike, whatever those fields hold.
-/

namespace Ulisse

open BlockMem Run Framing

variable {β : Type} {len : β → ℕ}

/-- Every installed operation is fixed and has its buffer on every request, as when it reuses one
and the same. -/
def SteadyTable (operations : Fin packetTypeMax → Option (PacketOperations len)) : Prop :=
  ∀ t op, lookup operations t = some op → op.Fixed ∧ op.NeverRefuses

/-- The status of a byte behind which no frame is under way: negative, or `SyncChecksum`. -/
def PacketStatus.Boundary (status : PacketStatus) : Prop :=
  status.code < 0 ∨ status = .syncChecksum

/-- Two answers with the same status that deliver the same. -/
def SameAnswer (r r' : RxReturn len) : Prop :=
  r.status = r'.status ∧ deliveries [r] = deliveries [r']

/-- Two receivers in the same phase. -/
def InStep (operations : Fin packetTypeMax → Option (PacketOperations len))
    (s s' : RxState len) : Prop :=
  ∃ ph, (RxAt operations s ph ∧ RoomAt s ph) ∧ (RxAt operations s' ph ∧ RoomAt s' ph)

section Step

variable {operations : Fin packetTypeMax → Option (PacketOperations len)} {s s' : RxState len}
  {ph : Phase UInt8 (PacketOperations len)} {c : UInt8} {r r' : RxReturn len}

theorem SteadyTable.fixed (h : SteadyTable operations) : FixedTable operations :=
  fun t op hl => (h t op hl).1

/-- Only two events go on with a frame without a positive status. -/
theorem statusOf_boundary {e : Event UInt8 (PacketOperations len)} (h : (statusOf e).Boundary) :
    e ≠ .sync₀ ∧ e ≠ .sync₁ ∧ e ≠ .tag ∧ e ≠ .len ∧ e ≠ .body ∧ e ≠ .bodyEnd := by
  refine ⟨?_, ?_, ?_, ?_, ?_, ?_⟩ <;> rintro rfl <;> rcases h with h | h <;>
    revert h <;> simp [statusOf, PacketStatus.code]

/-- **At a boundary** the receiver is back to hunting. -/
theorem Answers.boundary {g : Bool}
    (ha : Answers r ((rxScheme operations).step g ph c).2) (h : r.status.Boundary) :
    ((rxScheme operations).step g ph c).1 = .hunt := by
  rw [ha.status] at h
  obtain ⟨h0, h1, h2, h3, h4, h5⟩ := statusOf_boundary h
  cases ph with
  | hunt =>
    by_cases hc : c = (rxScheme operations).sync₀
    · simp [Scheme.step, hc] at h0
    · simp [Scheme.step, hc]
  | sync =>
    by_cases hc : c = (rxScheme operations).sync₁
    · simp [Scheme.step, hc] at h1
    · simp [Scheme.step, hc]
  | tag =>
    cases hc : (rxScheme operations).look c with
    | none => simp [Scheme.step, hc]
    | some op => simp [Scheme.step, hc] at h2
  | len t op =>
    cases hc : (rxScheme operations).accept op c with
    | none => simp [Scheme.step, hc]
    | some n =>
      cases g with
      | false => simp [Scheme.step, hc]
      | true => simp [Scheme.step, hc] at h3
  | body t op x need got =>
    by_cases hn : need = 1
    · simp [Scheme.step, hn] at h5
    · simp [Scheme.step, hn] at h4
  | stop t op x got => by_cases hc : c = (rxScheme operations).stop <;> simp [Scheme.step, hc]

/-- A frame completed over a fixed table is of its operation's size. -/
theorem FixedTable.done_size (hfix : FixedTable operations) (hwf : (rxScheme operations).Wf ph)
    {g : Bool} {op : PacketOperations len} {f : Frame UInt8}
    (he : ((rxScheme operations).step g ph c).2 = .done op f) :
    2 + f.body.length = op.size.toNat := by
  rcases (rxScheme operations).step_cases g ph c with ⟨t, o, x, got, rfl, -, hs⟩ | ⟨hq, -⟩
  · rw [hs] at he
    simp only [Event.done.injEq] at he
    obtain ⟨rfl, rfl⟩ := he
    exact ((hfix t o hwf.1).accept_iff.mp hwf.2).2
  · rw [he] at hq
    cases hq

/-- Answers to the same event are the same. -/
theorem Answers.same {e : Event UInt8 (PacketOperations len)} (ha : Answers r e)
    (ha' : Answers r' e) (hlen : ∀ op f, e = .done op f → 2 + f.body.length = op.size.toNat) :
    SameAnswer r r' := by
  refine ⟨ha.status.trans ha'.status.symm, ?_⟩
  cases he : e.done? with
  | none => rw [ha.quiet_deliveries he, ha'.quiet_deliveries he]
  | some d =>
    have hev := done_of_done? he
    have hle := (hlen _ _ hev).ge
    rw [ha.deliver hev hle, ha'.deliver hev hle]

variable [DecidableEq β]

/-- **One byte** keeps two receivers in step. -/
theorem InStep.byte (ht : SteadyTable operations) (h : InStep operations s s') (c : UInt8) :
    ∃ t r t' r', rxByte s c = some (t, r) ∧ rxByte s' c = some (t', r') ∧
      InStep operations t t' ∧ SameAnswer r r' := by
  obtain ⟨ph, ⟨hr, hroom⟩, hr', hroom'⟩ := h
  have hserve : Serves operations ph := by
    refine PacketOperations.Fixed.serves ?_
    rintro t op rfl
    exact ht t op hr.wf
  obtain ⟨t, r, he, ht₁, hroom₁, ha⟩ := rxByte_granted hr hroom hserve c
  obtain ⟨t', r', he', ht₁', hroom₁', ha'⟩ := rxByte_granted hr' hroom' hserve c
  exact ⟨t, r, t', r', he, he', ⟨_, ⟨ht₁, hroom₁⟩, ht₁', hroom₁'⟩,
    ha.same ha' fun op f => ht.fixed.done_size hr.wf⟩

/-- **Runs** of two receivers in step are defined and answer alike. -/
theorem InStep.run (ht : SteadyTable operations) (h : InStep operations s s') (bs : List UInt8) :
    ∃ t rs t' rs', Run.run rxByte s bs = some (t, rs) ∧ Run.run rxByte s' bs = some (t', rs') ∧
      InStep operations t t' ∧ List.Forall₂ SameAnswer rs rs' :=
  run_bisim (fun _ _ c h => h.byte ht c) h bs

omit [DecidableEq β] in
theorem sameAnswers {rs rs' : List (RxReturn len)} (h : List.Forall₂ SameAnswer rs rs') :
    rs.map RxReturn.status = rs'.map RxReturn.status ∧ deliveries rs = deliveries rs' := by
  induction h with
  | nil => exact ⟨rfl, rfl⟩
  | @cons r r' rs rs' ha _ ih =>
    obtain ⟨h1, h2⟩ := ih
    refine ⟨by rw [List.map_cons, List.map_cons, ha.1, h1], ?_⟩
    rw [← List.singleton_append, ← List.singleton_append (l := rs'), deliveries_append,
      deliveries_append, ha.2, h2]

omit [DecidableEq β] in
theorem initialized_hunting (h : PacketHandler len) (m : Mem UInt8 len) :
    RxAt h.operations ⟨h.initialized, m⟩ .hunt := ⟨rfl, trivial, rfl⟩

/-- **Behind a boundary** a receiver is in step with a fresh one. -/
theorem boundary_inStep {h h' : PacketHandler len} (hsame : h'.operations = h.operations)
    (ht : SteadyTable h.operations) {m m' : Mem UInt8 len} {u : List UInt8}
    {rs : List (RxReturn len)} (hrun : Run.run rxByte ⟨h.initialized, m⟩ u = some (s, rs))
    (hlast : rs.getLast? = some r) (hr : r.status.Boundary) :
    InStep h.operations s ⟨h'.initialized, m'⟩ := by
  rcases List.eq_nil_or_concat u with rfl | ⟨v, c, rfl⟩
  · obtain ⟨-, rfl⟩ := run_nil_some hrun
    cases hlast
  · rw [List.concat_eq_append] at hrun
    obtain ⟨t, os, o, h1, h2, rfl⟩ := run_concat hrun
    obtain rfl : o = r := by simpa using hlast
    obtain ⟨_, _, -, ph, h3, -, hrt, -, -⟩ :=
      rxRun_total ht.fixed (initialized_hunting h m) trivial v
    obtain ⟨rfl, -⟩ := result_unique h1 h3
    obtain ⟨g, -, hs, ha⟩ := rxByte_sim hrt h2
    rw [ha.boundary hr] at hs
    exact ⟨.hunt, ⟨hs, trivial⟩, hsame ▸ initialized_hunting h' m', trivial⟩

end Step

variable [DecidableEq β]

/-- **A frame boundary erases history**: behind a stream `u` that ends in an error or with a
completed frame, every stream is answered with the statuses and the packets with which a freshly
initialized handler with the same table answers it, whatever the buffers held. -/
theorem boundary_erases {h : PacketHandler len} (ht : SteadyTable h.operations)
    (m : Mem UInt8 len) (u : List UInt8) :
    ∃ s rs, run rxByte ⟨h.initialized, m⟩ u = some (s, rs) ∧
      ∀ r, rs.getLast? = some r → r.status.code < 0 ∨ r.status = .syncChecksum →
      ∀ (h' : PacketHandler len) (m' : Mem UInt8 len) (v : List UInt8),
        h'.operations = h.operations →
        ∃ t qs t' qs', run rxByte s v = some (t, qs) ∧
          run rxByte ⟨h'.initialized, m'⟩ v = some (t', qs') ∧
          qs.map RxReturn.status = qs'.map RxReturn.status ∧ deliveries qs = deliveries qs' := by
  obtain ⟨s, rs, -, -, hrun, -⟩ := rxRun_total ht.fixed (initialized_hunting h m) trivial u
  refine ⟨s, rs, hrun, fun r hlast hr h' m' v hsame => ?_⟩
  obtain ⟨t, qs, t', qs', h1, h2, -, hqs⟩ := (boundary_inStep hsame ht hrun hlast hr).run ht v
  obtain ⟨hstatus, hdel⟩ := sameAnswers hqs
  exact ⟨t, qs, t', qs', h1, h2, hstatus, hdel⟩

/-- The listener forgets a frame with a bad trailer. -/
theorem boundary_erases_listener :
    ∃ s rs, run rxByte (listener 2 6) [0xAA, 0x55, 2, 6, 1, 2, 3, 4, 0] = some (s, rs) ∧
      ∀ v, ∃ t qs t' qs', run rxByte s v = some (t, qs) ∧
        run rxByte (listener 2 6) v = some (t', qs') ∧
        qs.map RxReturn.status = qs'.map RxReturn.status ∧ deliveries qs = deliveries qs' := by
  have ht : SteadyTable (listener 2 6).h.operations := by
    intro t op hl
    obtain ⟨-, rfl⟩ := (listener_lookup (by decide)).mp hl
    exact ⟨bufferedOp_fixed (by decide) (by decide), bufferedOp_neverRefuses⟩
  have hinit : (listener 2 6).h.initialized = (listener 2 6).h := rfl
  obtain ⟨s, rs, hrun, hafter⟩ :=
    boundary_erases ht (listener 2 6).mem [0xAA, 0x55, 2, 6, 1, 2, 3, 4, 0]
  rw [hinit] at hrun
  have hstatus : (run rxByte (listener 2 6) [0xAA, 0x55, 2, 6, 1, 2, 3, 4, 0]).map
      (fun q => q.2.getLast?.map RxReturn.status) = some (some .checksumError) := by decide
  rw [hrun, Option.map_some, Option.some_inj] at hstatus
  obtain ⟨r, hlast, hr⟩ := Option.map_eq_some_iff.mp hstatus
  refine ⟨s, rs, hrun, fun v => ?_⟩
  exact hafter r hlast (Or.inl (by rw [hr]; decide)) (listener 2 6).h (listener 2 6).mem v rfl

end Ulisse
