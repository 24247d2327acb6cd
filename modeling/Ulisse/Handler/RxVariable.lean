import Ulisse.Handler.RxRuns

/-!
# Handler.RxVariable — packets of any size

For an operation of size `PACKET_SIZE_ANY` the size byte of the stream drives the countdown, while
the buffer request and the rebuilt header take the table's `255`.  The two disagree: a size byte
below `4` is started, and a delivered packet says that it is 255 bytes long.  `variable_iff` says
on which runs that does no harm.
-/

namespace Ulisse

open BlockMem Run Framing

variable {β : Type} {len : β → ℕ}

/-- The stream `bs` ends in the beginning `AA 55 t x` of a frame and the payload bytes `got`, and
the answers `rs` say so. -/
structure Received (bs : List UInt8) (rs : List (RxReturn len)) (t x : UInt8) (got : List UInt8) :
    Prop where
  bytes : ∃ pre, bs = pre ++ 0xAA :: 0x55 :: t :: x :: got
  answers : ∃ rs₀ r rs₁, rs = rs₀ ++ r :: rs₁ ∧ rs₁.length = got.length ∧ r.status = .syncSize ∧
    ∀ q ∈ rs₁, q.status = .syncPayload ∨ q.status = .syncPayloadComplete

/-- What a step may do for an operation of any size, after the stream `bs` and its answers `rs`: a
payload byte goes inside the buffer of the size asked for, a size below a header is rejected, and
a packet of `4` to `251` bytes is delivered as it was sent. -/
structure VariableOk [DecidableEq β] (bs : List UInt8) (rs : List (RxReturn len)) (s : RxState len)
    (c : UInt8) : Prop where
  inside : ∀ op, s.h.rxFn = .rxPayload → s.h.rxCurrentOp = some op → op.size = packetSizeAny →
    ∃ p k, s.h.rxBuffer = some p ∧ s.h.rxBufferEnd = some (p.add k) ∧ k < op.size.toNat
  rejects : ∀ op s' r, s.h.rxFn = .rxSize → s.h.rxCurrentOp = some op → op.size = packetSizeAny →
    c.toNat < sizeofPacketHeader → rxByte s c = some (s', r) → r.status ≠ .syncSize
  faithful : ∀ op s' r t x got p buffer, rxByte s c = some (s', r) →
    .onRecive op p buffer ∈ r.calls → op.size = packetSizeAny → Received bs rs t x got →
    2 + got.length = x.toNat → 4 ≤ x.toNat → x.toNat ≤ 251 → buffer.take x.toNat = t :: x :: got

/-- The step does not run into the disagreement: an operation of any size with a buffer to give
hears a size that a header fits in, and no frame of `4` to `251` bytes in its buffer is closed with
a function to deliver it to. -/
structure Spared (s : RxState len) (c : UInt8) : Prop where
  size : ∀ op, s.h.rxFn = .rxSize → s.h.rxCurrentOp = some op → op.size = packetSizeAny →
    (op.initializeBuffer s.mem).1 ≠ none → sizeofPacketHeader ≤ c.toNat
  close : ∀ op p k, s.h.rxFn = .rxChecksum → c = 0xFF → s.h.rxCurrentOp = some op →
    op.size = packetSizeAny → op.onReciveFn.isSome → s.h.rxBuffer = some p →
    s.h.rxBufferEnd = some (p.add k) → k < 4 ∨ 251 < k

section Received

variable {operations : Fin packetTypeMax → Option (PacketOperations len)}
  {bs : List UInt8} {rs : List (RxReturn len)} {es : List (Event UInt8 (PacketOperations len))}
  {t x t' x' : UInt8} {got got' : List UInt8} {op : PacketOperations len}

/-- The beginning of the frame under way is determined by the stream and the answers. -/
theorem Received.unique (h : Received bs rs t x got) (h' : Received bs rs t' x' got') :
    x = x' ∧ got = got' := by
  have hlen : got.length = got'.length := by
    obtain ⟨rs₀, r, rs₁, he, hl, hr, hq⟩ := h.answers
    obtain ⟨rs₀', r', rs₁', he', hl', hr', hq'⟩ := h'.answers
    have hno : ∀ q : RxReturn len, q.status = .syncSize →
        ¬ (q.status = .syncPayload ∨ q.status = .syncPayloadComplete) := by
      intro q hs
      rw [hs]
      decide
    -- the last answer `SyncSize` is the same one
    rcases List.append_eq_append_iff.mp (he.symm.trans he') with ⟨as, -, has⟩ | ⟨as, -, has⟩
    · rcases as with _ | ⟨a, as⟩
      · rw [← hl, ← hl', (List.cons.inj has).2]
      · have hmem : r' ∈ rs₁ := by
          rw [(List.cons.inj has).2]
          exact List.mem_append_right _ List.mem_cons_self
        exact absurd (hq r' hmem) (hno r' hr')
    · rcases as with _ | ⟨a, as⟩
      · rw [← hl, ← hl', (List.cons.inj has).2]
      · have hmem : r ∈ rs₁' := by
          rw [(List.cons.inj has).2]
          exact List.mem_append_right _ List.mem_cons_self
        exact absurd (hq' r hmem) (hno r hr)
  obtain ⟨pre, hb⟩ := h.bytes
  obtain ⟨pre', hb'⟩ := h'.bytes
  have heq := List.append_inj_right' (hb.symm.trans hb') (by simp [hlen])
  simp only [List.cons.injEq, true_and] at heq
  exact heq.2

/-- A frame that waits for its checksum was received. -/
theorem Trace.received (htr : Trace (rxScheme operations) .hunt bs es (.stop t op x got))
    (hans : List.Forall₂ Answers rs es) : Received bs rs t x got := by
  obtain ⟨pre, -, -, hbs⟩ := htr.pending
  obtain ⟨pre', es₀, es₁, hbs', rfl, hpre, hbody⟩ := htr.since_len_stop
  refine ⟨⟨pre, hbs⟩, ?_⟩
  have hcount : es₁.length = got.length := by
    have hlen := htr.length
    rw [hbs', List.length_append, List.length_append, List.length_append,
      List.length_singleton] at hlen
    omega
  obtain ⟨rs₀, r, rs₁, rfl, -, hstatus, hrs₁⟩ := answers_since_len hans
  refine ⟨rs₀, r, rs₁, rfl, hrs₁.length_eq.trans hcount, hstatus, ?_⟩
  intro q hq
  obtain ⟨e, he, hq⟩ := answers_status hrs₁ hq
  rw [hq]
  rcases hbody e he with rfl | rfl
  · exact Or.inl rfl
  · exact Or.inr rfl

end Received

section Runs

variable [DecidableEq β] {operations : Fin packetTypeMax → Option (PacketOperations len)}
  {s s' : RxState len} {ph : Phase UInt8 (PacketOperations len)} {c : UInt8} {r : RxReturn len}
  {bs : List UInt8} {rs : List (RxReturn len)}

/-- A size that an operation of any size has started with leaves room for a header. -/
def HeaderFits : Phase UInt8 (PacketOperations len) → Prop
  | .body _ op x _ _ => op.size = packetSizeAny → sizeofPacketHeader ≤ x.toNat
  | _ => True

/-- A frame is started only with a buffer. -/
theorem rxByte_syncSize {op : PacketOperations len} (hfn : s.h.rxFn = .rxSize)
    (ho : s.h.rxCurrentOp = some op) (he : rxByte s c = some (s', r))
    (hstatus : r.status = .syncSize) : (op.initializeBuffer s.mem).1 ≠ none := by
  intro hp
  simp only [rxByte, hfn] at he
  rcases rxSize_cases ho he with ⟨-, -, rfl⟩ | ⟨-, ⟨-, -, rfl⟩ | ⟨p, -, -, hq, -⟩⟩
  · cases hstatus
  · cases hstatus
  · rw [hp] at hq
    cases hq

theorem rxByte_headerFits (hr : RxAt operations s ph) (hfit : HeaderFits ph) (hsp : Spared s c)
    (he : rxByte s c = some (s', r)) {g : Bool}
    (ha : Answers r ((rxScheme operations).step g ph c).2) :
    HeaderFits ((rxScheme operations).step g ph c).1 := by
  generalize hnext : ((rxScheme operations).step g ph c).1 = next
  cases next with
  | body t op x need got =>
    intro hany
    rcases Scheme.step_to_body hnext with ⟨-, hev⟩ | ⟨n, got', rfl, -, -⟩
    · -- the size byte has just been heard
      obtain ⟨t', op', n, rfl, -, hbody⟩ := Scheme.step_len hev
      rw [hbody] at hnext
      cases hnext
      obtain ⟨hfn, ho⟩ := hr.fields
      exact hsp.size _ hfn ho hany (rxByte_syncSize hfn ho he (ha.syncSize_iff.mpr hev))
    · exact hfit hany
  | _ => trivial

/-- **Along spared steps** the receiver goes through a trace on whose sizes headers fit. -/
theorem spared_trace (hs : s.h.rxFn = .rxAA)
    (hsp : Along rxByte (fun _ _ s c => Spared s c) s bs) (hrun : run rxByte s bs = some (s', rs)) :
    ∃ es ph, Trace (rxScheme s.h.operations) .hunt bs es ph ∧ RxAt s.h.operations s' ph ∧
      List.Forall₂ Answers rs es ∧ HeaderFits ph := by
  refine run_along (J := fun bs rs s' => ∃ es ph, Trace (rxScheme s.h.operations) .hunt bs es ph ∧
    RxAt s.h.operations s' ph ∧ List.Forall₂ Answers rs es ∧ HeaderFits ph)
    ⟨[], .hunt, .nil, RxAt.hunting hs, .nil, trivial⟩ ?_ hsp hrun
  rintro bs rs t c u r ⟨es, ph, htr, hr, hans, hfit⟩ hsp he
  obtain ⟨g, -, hr', ha⟩ := rxByte_sim hr he
  exact ⟨_, _, htr.snoc g c, hr', List.rel_append hans (.cons ha .nil),
    rxByte_headerFits hr hfit hsp he ha⟩

/-- A call of `on_recive_fn` closes a frame. -/
theorem rxByte_closes {op : PacketOperations len} {p : Option (Ptr β)} {buffer : List UInt8}
    (hr : RxAt operations s ph) (he : rxByte s c = some (s', r))
    (hcall : .onRecive op p buffer ∈ r.calls) :
    ∃ t x got, ph = .stop t op x got ∧ c = 0xFF ∧ op.onReciveFn.isSome := by
  obtain ⟨g, -, -, ha⟩ := rxByte_sim hr he
  rcases (rxScheme operations).step_cases g ph c with ⟨t, o, x, got, rfl, hc, hstep⟩ | ⟨hq, -⟩
  · rw [hstep] at ha
    obtain ⟨q, buffer', -, hcalls⟩ := ha.done o ⟨t, x, got⟩ rfl
    rw [hcalls] at hcall
    split_ifs at hcall with hon
    · rw [List.mem_singleton, Call.onRecive.injEq] at hcall
      obtain ⟨rfl, -, -⟩ := hcall
      exact ⟨t, x, got, rfl, hc, hon⟩
    · cases hcall
  · have hmem : (⟨op, buffer.take op.size.toNat⟩ : Delivery len) ∈
        r.calls.filterMap Call.delivery? := List.mem_filterMap.mpr ⟨_, hcall, rfl⟩
    rw [ha.quiet hq] at hmem
    cases hmem

/-- A spared step does what it may. -/
theorem VariableOk.of_spared {es : List (Event UInt8 (PacketOperations len))}
    (htr : Trace (rxScheme operations) .hunt bs es ph) (hr : RxAt operations s ph)
    (hans : List.Forall₂ Answers rs es) (hfit : HeaderFits ph) (hsp : Spared s c) :
    VariableOk bs rs s c := by
  refine ⟨?_, ?_, ?_⟩
  · intro op hfn ho hany
    obtain ⟨t, op', x, need, got, rfl⟩ := hr.payload_phase hfn
    obtain ⟨-, ho', -, p, hb⟩ := hr.fields
    obtain rfl : op' = op := Option.some_inj.mp (ho'.symm.trans ho)
    obtain ⟨-, hacc, hpos⟩ := hr.wf
    have h4 : 4 ≤ x.toNat := hfit hany
    have hlt := x.toNat_lt
    have hn := Option.some_inj.mp ((accept_of_ok fun h => h.1 hany).symm.trans hacc)
    rw [payloadLength_of_le (by omega)] at hn
    refine ⟨p, _, hb.buffer, hb.bufferEnd, ?_⟩
    rw [hany, show packetSizeAny.toNat = 255 from rfl]
    omega
  · intro op s' r hfn ho hany hlt he hstatus
    have h4 := hsp.size op hfn ho hany (rxByte_syncSize hfn ho he hstatus)
    omega
  · intro op s' r t x got p buffer he hcall hany hrec hlen h4 h251
    obtain ⟨t', x', got', rfl, hc, hon⟩ := rxByte_closes hr he hcall
    obtain ⟨-, rfl⟩ := hrec.unique (Trace.received htr hans)
    obtain ⟨hfn, ho, q, hb⟩ := hr.fields
    have hk := hsp.close op q _ hfn hc ho hany hon hb.buffer hb.bufferEnd
    omega

/-- A step that does what it may is spared. -/
theorem Spared.of_ok {es : List (Event UInt8 (PacketOperations len))}
    (hbuf : ∀ t op, lookup operations t = some op → op.size = packetSizeAny → op.BufferFits)
    (htr : Trace (rxScheme operations) .hunt bs es ph) (hr : RxAt operations s ph)
    (hans : List.Forall₂ Answers rs es) (hok : VariableOk bs rs s c) : Spared s c := by
  refine ⟨?_, ?_⟩
  · intro op hfn ho hany hne
    by_contra hlt
    obtain ⟨t, op', hl, ho'⟩ := hr.current (Or.inl hfn)
    obtain rfl : op' = op := Option.some_inj.mp (ho'.symm.trans ho)
    obtain ⟨p, hp⟩ := Option.ne_none_iff_exists'.mp hne
    have hroom : Room len p op'.size.toNat := hbuf t op' hl hany s.mem p hp
    have h2 : 2 ≤ op'.size.toNat := by
      rw [hany]
      decide
    obtain ⟨s', r, he⟩ := rxSize_defined (c := c) ho fun q hq _ => by
      obtain rfl := Option.some_inj.mp (hp.symm.trans hq)
      exact hroom.mono h2
    obtain ⟨-, -, hr'⟩ := rxSize_started ho (fun h => h.1 hany) hp he
    refine hok.rejects op' s' r hfn ho hany (by omega) ?_ (by rw [hr'])
    simp only [rxByte, hfn]
    exact he
  · intro op p k hfn hc ho hany hon hp hk
    by_contra hbad
    obtain ⟨t, op', x, got, rfl⟩ := hr.checksum_phase hfn
    obtain ⟨-, ho', q, hb⟩ := hr.fields
    obtain rfl : op' = op := Option.some_inj.mp (ho'.symm.trans ho)
    obtain rfl : q = p := Option.some_inj.mp (hb.buffer.symm.trans hp)
    -- the cursor is at the declared size
    have hcursor : 2 + got.length = k := by
      have heq := Option.some_inj.mp (hb.bufferEnd.symm.trans hk)
      have hoff := congrArg Ptr.off heq
      simp only [Ptr.add_off] at hoff
      omega
    have hn := Option.some_inj.mp ((accept_of_ok fun h => h.1 hany).symm.trans hr.wf.2)
    have hx : k = x.toNat := by
      by_cases h3 : 3 ≤ x.toNat
      · rw [payloadLength_of_le h3] at hn
        omega
      · have h254 := payloadLength_of_lt (c := x) (by omega)
        omega
    obtain ⟨s', r, he⟩ := rxByte_defined hr trivial trivial c
    obtain ⟨g, -, -, ha⟩ := rxByte_sim hr he
    have hstep : (rxScheme operations).step g (.stop t op' x got) c =
        (.hunt, .done op' ⟨t, x, got⟩) := if_pos hc
    rw [hstep] at ha
    obtain ⟨q', buffer, hbytes, hcalls⟩ := ha.done op' ⟨t, x, got⟩ rfl
    rw [if_pos hon] at hcalls
    have hsent := hok.faithful op' s' r t x got q' buffer he (by rw [hcalls]; exact .head _) hany
      (Trace.received htr hans) (by omega) (by omega) (by omega)
    rw [← hx, ← hcursor, hbytes] at hsent
    have hsize : op'.size = x := (List.cons.inj (List.cons.inj hsent).2).1
    rw [← hsize, hany] at hx
    have h255 : packetSizeAny.toNat = 255 := rfl
    omega

end Runs

variable [DecidableEq β]

/-- **Variable sizes**: a run does no harm to operations of any size exactly if each of its steps
is spared. -/
theorem variable_iff {s : RxState len} (hs : s.h.rxFn = .rxAA)
    (hbuf : ∀ t op, lookup s.h.operations t = some op → op.size = packetSizeAny → op.BufferFits)
    (bs : List UInt8) :
    Along rxByte VariableOk s bs ↔ Along rxByte (fun _ _ s c => Spared s c) s bs := by
  constructor
  · intro hok pre c post t os hbs hrun
    obtain ⟨es, ph, htr, hr, hans⟩ := rxRun_trace (RxAt.hunting hs) hrun
    exact Spared.of_ok hbuf htr hr hans (hok pre c post t os hbs hrun)
  · rintro hsp pre c post t os rfl hrun
    obtain ⟨es, ph, htr, hr, hans, hfit⟩ := spared_trace hs hsp.left hrun
    exact VariableOk.of_spared htr hr hans hfit (hsp pre c post t os rfl hrun)

/-- An operation that asks for a buffer for packets of any size, and has no function to deliver them
to. -/
def muteOp : PacketOperations oneBlock := { bufferedOp 2 packetSizeAny with onReciveFn := none }

/-- A handler with this operation. -/
def muteListener : RxState oneBlock :=
  { listener 2 packetSizeAny with h := (zeroHandler.initialized.installPacket muteOp).2 }

theorem muteListener_lookup {t : UInt8} {op : PacketOperations oneBlock}
    (h : lookup muteListener.h.operations t = some op) : op = muteOp := by
  have hi : (zeroHandler : PacketHandler oneBlock).initialized.installPacket muteOp =
      (.success, muteListener.h) := rfl
  obtain ⟨-, -, hl, -⟩ := PacketHandler.installPacket_success hi
  have hnone : lookup (zeroHandler : PacketHandler oneBlock).initialized.operations t = none := by
    unfold lookup
    split_ifs <;> rfl
  rw [hl t, hnone] at h
  split_ifs at h
  exact (Option.some_inj.mp h).symm

/-- It takes in a whole frame of five bytes. -/
theorem variable_iff_listener :
    ∃ s' rs, run rxByte muteListener [0xAA, 0x55, 2, 5, 17, 34, 51, 0xFF] = some (s', rs) ∧
      rs.map (·.status) = [.syncAA, .sync55, .syncType, .syncSize, .syncPayload, .syncPayload,
        .syncPayloadComplete, .syncChecksum] ∧
      Along rxByte VariableOk muteListener [0xAA, 0x55, 2, 5, 17, 34, 51, 0xFF] := by
  have hstatus : (run rxByte muteListener [0xAA, 0x55, 2, 5, 17, 34, 51, 0xFF]).map
      (fun q => q.2.map (·.status)) = some [.syncAA, .sync55, .syncType, .syncSize, .syncPayload,
        .syncPayload, .syncPayloadComplete, .syncChecksum] := by decide +kernel
  obtain ⟨⟨s', rs⟩, hrun, hrs⟩ := Option.map_eq_some_iff.mp hstatus
  refine ⟨s', rs, hrun, hrs, (variable_iff rfl (fun t op hl _ => ?_) _).mpr ?_⟩
  · obtain rfl := muteListener_lookup hl
    exact @bufferedOp_fits 2 packetSizeAny
  · -- the size byte is the fourth, and the frame is closed for the mute operation
    have hsteps : ∀ i : Fin 8, (run rxByte muteListener
        ([0xAA, 0x55, 2, 5, 17, 34, 51, 0xFF].take i.val)).map (fun q =>
          decide ((q.1.h.rxFn = .rxSize → i.val = 3) ∧ (q.1.h.rxFn = .rxChecksum →
            (q.1.h.rxCurrentOp.map fun op => op.onReciveFn.isSome) = some false))) =
        some true := by decide +kernel
    intro pre c post t os hbs hrun
    have hlt : pre.length < 8 := by
      have hlen := congrArg List.length hbs
      rw [List.length_append, List.length_cons] at hlen
      simp only [List.length_cons, List.length_nil] at hlen
      omega
    have hstep := hsteps ⟨pre.length, hlt⟩
    dsimp only at hstep
    rw [hbs, List.take_left, hrun, Option.map_some, Option.some_inj, decide_eq_true_eq] at hstep
    obtain ⟨hsize, hclose⟩ := hstep
    refine ⟨fun op hfn _ _ _ => ?_, fun op p k hfn _ hop _ hon _ _ => ?_⟩
    · have hc : [0xAA, 0x55, 2, 5, 17, 34, 51, 0xFF][pre.length]? = some c := by
        rw [hbs, List.getElem?_append_right (Nat.le_refl _), Nat.sub_self]
        rfl
      rw [hsize hfn] at hc
      obtain rfl := Option.some_inj.mp hc
      decide
    · rw [hop, Option.map_some, hon] at hclose
      exact absurd (hclose hfn) (by decide)

/-- A frame of a bare header reaches the listener with the size `255`. -/
theorem variable_counterexample :
    lookup (listener 2 255).h.operations 2 = some (bufferedOp 2 packetSizeAny) ∧
    (bufferedOp 2 packetSizeAny).BufferFits ∧
    ¬ Along rxByte VariableOk (listener 2 255) [0xAA, 0x55, 2, 4, 17, 34, 0xFF] := by
  refine ⟨(listener_lookup (by decide)).mpr ⟨rfl, rfl⟩, bufferedOp_fits, fun hok => ?_⟩
  have hlast := hok [0xAA, 0x55, 2, 4, 17, 34] 0xFF [] _ _ rfl rfl
  have hsent := hlast.faithful (bufferedOp 2 packetSizeAny) _ _ 2 4 [17, 34] (some ⟨(), 0⟩) _ rfl
    (List.mem_singleton_self _) rfl
    ⟨⟨[], rfl⟩, [_, _, _], _, [_, _], rfl, rfl, rfl, by simp⟩ rfl (by decide) (by decide)
  exact absurd hsent (by decide)

end Ulisse
