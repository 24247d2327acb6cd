import Ulisse.Handler.RxRefine

/-!
# Handler.RxRuns — runs of the receiver over fixed-size tables

A table is *fixed* when every installed operation has a size in `3..254` and a buffer for it.  Over
such a table the receiver is defined on every stream (`rxRun_total`), it delivers what the hunter
completes (`deliveries_of_answers`), it takes in a frame that its operation has a buffer for
(`rxRun_frame`), and noise leaves it hunting or one byte into a sync pair (`rxRun_noise`).
-/

namespace Ulisse

open BlockMem Run Framing

variable {β : Type} {len : β → ℕ}

/-- The packet of `op` with what follows type and size. -/
def packetOf (op : PacketOperations len) (payload : List UInt8) : List UInt8 :=
  op.type :: op.size :: payload

/-- The frame around it. -/
def frameOf (op : PacketOperations len) (payload : List UInt8) : List UInt8 :=
  0xAA :: 0x55 :: (packetOf op payload ++ [0xFF])

/-- The operation has a fixed size in `3..254`, and its `initialize_buffer_fn` returns null or
a buffer of that size. -/
structure PacketOperations.Fixed (op : PacketOperations len) : Prop where
  size_ge : 3 ≤ op.size.toNat
  size_le : op.size.toNat ≤ packetSizeMax
  fits : op.BufferFits

/-- Every installed operation is fixed. -/
def FixedTable (operations : Fin packetTypeMax → Option (PacketOperations len)) : Prop :=
  ∀ t op, lookup operations t = some op → op.Fixed

section Table

variable {operations : Fin packetTypeMax → Option (PacketOperations len)} {t c : UInt8} {n : ℕ}
  {op : PacketOperations len} {ph : Phase UInt8 (PacketOperations len)}

theorem PacketOperations.Fixed.size_ne (hop : op.Fixed) : op.size ≠ packetSizeAny := by
  intro he
  have hle := hop.size_le
  rw [he] at hle
  exact absurd hle (by decide)

/-- An operation that is not for any size accepts its own. -/
theorem accept_own (hne : op.size ≠ packetSizeAny) :
    (rxScheme operations).accept op c = some n ↔ c = op.size ∧ n = payloadLength op.size := by
  by_cases hc : c = op.size
  · subst hc
    rw [accept_of_ok (fun h => h.2 rfl), Option.some.injEq]
    exact ⟨fun h => ⟨rfl, h.symm⟩, fun h => h.2.symm⟩
  · rw [accept_of_bad ⟨hne, fun h => hc h.symm⟩]
    constructor
    · intro h
      cases h
    · rintro ⟨h, -⟩
      exact absurd h hc

theorem PacketOperations.Fixed.accept_iff (hop : op.Fixed) :
    (rxScheme operations).accept op c = some n ↔ c = op.size ∧ 2 + n = op.size.toNat := by
  have h3 := hop.size_ge
  rw [accept_own hop.size_ne, payloadLength_of_le h3]
  constructor
  · rintro ⟨h1, h2⟩
    exact ⟨h1, by omega⟩
  · rintro ⟨h1, h2⟩
    exact ⟨h1, by omega⟩

theorem FixedTable.size_ne (hfix : FixedTable operations) (t : UInt8) (op : PacketOperations len)
    (hl : lookup operations t = some op) : op.size ≠ packetSizeAny :=
  (hfix t op hl).size_ne

theorem FixedTable.sizesFit (hfix : FixedTable operations) (hwf : (rxScheme operations).Wf ph) :
    SizesFit operations ph := by
  cases ph with
  | len t op =>
    have hop := hfix t op hwf
    exact ⟨hop.fits, fun c n hacc => (hop.accept_iff.mp hacc).2.le⟩
  | _ => trivial

/-- The frames of a fixed operation: its slot, its size and as many bytes. -/
theorem PacketOperations.Fixed.fits_iff (hop : op.Fixed) {f : Frame UInt8} :
    (rxScheme operations).Fits op f ↔
      lookup operations f.tag = some op ∧ f.len = op.size ∧ 2 + f.body.length = op.size.toNat := by
  constructor
  · intro h
    exact ⟨h.look, hop.accept_iff.mp h.accept⟩
  · rintro ⟨hl, hacc⟩
    exact ⟨hl, hop.accept_iff.mpr hacc⟩

end Table

/-! ## The phase behind `rxFn` -/

section Phases

variable {operations : Fin packetTypeMax → Option (PacketOperations len)} {s : RxState len}
  {ph : Phase UInt8 (PacketOperations len)}

/-- The receive function that waits in a phase. -/
def phaseFn : Phase UInt8 (PacketOperations len) → RxFn
  | .hunt => .rxAA
  | .sync => .rx55
  | .tag => .rxType
  | .len _ _ => .rxSize
  | .body _ _ _ _ _ => .rxPayload
  | .stop _ _ _ _ => .rxChecksum

theorem RxAt.rxFn_eq (hr : RxAt operations s ph) : s.h.rxFn = phaseFn ph := by
  have hf := hr.fields
  cases ph with
  | hunt => exact hf
  | sync => exact hf
  | tag => exact hf
  | len t op => exact hf.1
  | body t op x need got => exact hf.1
  | stop t op x got => exact hf.1

/-- The functions that read a payload or look at the current operation find one. -/
theorem RxAt.current (hr : RxAt operations s ph)
    (hfn : s.h.rxFn = .rxSize ∨ s.h.rxFn = .rxPayload ∨ s.h.rxFn = .rxChecksum) :
    ∃ t op, lookup operations t = some op ∧ s.h.rxCurrentOp = some op := by
  have hf := hr.fields
  have hw := hr.wf
  rw [hr.rxFn_eq] at hfn
  cases ph with
  | len t op => exact ⟨t, op, hw, hf.2⟩
  | body t op x need got => exact ⟨t, op, hw.1, hf.2.1⟩
  | stop t op x got => exact ⟨t, op, hw.1, hf.2.1⟩
  | _ => simp [phaseFn] at hfn

theorem RxAt.payload_phase (hr : RxAt operations s ph) (hfn : s.h.rxFn = .rxPayload) :
    ∃ t op x need got, ph = .body t op x need got := by
  rw [hr.rxFn_eq] at hfn
  cases ph with
  | body t op x need got => exact ⟨t, op, x, need, got, rfl⟩
  | _ => cases hfn

theorem RxAt.checksum_phase (hr : RxAt operations s ph) (hfn : s.h.rxFn = .rxChecksum) :
    ∃ t op x got, ph = .stop t op x got := by
  rw [hr.rxFn_eq] at hfn
  cases ph with
  | stop t op x got => exact ⟨t, op, x, got, rfl⟩
  | _ => cases hfn

end Phases

/-! ## What answers deliver -/

section Answers

variable {operations : Fin packetTypeMax → Option (PacketOperations len)}
  {r : RxReturn len} {rs : List (RxReturn len)} {e : Event UInt8 (PacketOperations len)}
  {es : List (Event UInt8 (PacketOperations len))}

theorem forall₂_getElem? {α γ : Type} {R : α → γ → Prop} {xs : List α} {ys : List γ}
    (h : List.Forall₂ R xs ys) {i : ℕ} {x : α} (hx : xs[i]? = some x) :
    ∃ y, ys[i]? = some y ∧ R x y := by
  obtain ⟨hi, rfl⟩ := List.getElem?_eq_some_iff.mp hx
  have hi' : i < ys.length := h.length_eq ▸ hi
  exact ⟨ys[i], List.getElem?_eq_getElem hi', h.get hi hi'⟩

/-- The packet that a completed frame is delivered as: the header is rebuilt from the table, and
the table's size says how much of it is the packet. -/
def rebuilt (op : PacketOperations len) (f : Frame UInt8) : List UInt8 :=
  (op.type :: op.size :: f.body).take op.size.toNat

theorem rebuilt_of_length {op : PacketOperations len} {f : Frame UInt8}
    (hlen : 2 + f.body.length = op.size.toNat) : rebuilt op f = op.type :: op.size :: f.body := by
  apply List.take_of_length_le
  rw [List.length_cons, List.length_cons]
  omega

/-- **A completed frame** that fills the operation's size is delivered. -/
theorem Answers.deliver {op : PacketOperations len} {f : Frame UInt8} (h : Answers r e)
    (he : e = .done op f) (hlen : op.size.toNat ≤ 2 + f.body.length) :
    deliveries [r] = op.deliver (rebuilt op f) := by
  obtain ⟨p, buffer, hb, hcalls⟩ := h.done op f he
  have htake : buffer.take op.size.toNat = rebuilt op f := by
    rw [rebuilt, ← hb, List.take_take, Nat.min_eq_left hlen]
  rw [deliveries_cons, hcalls, PacketOperations.deliver]
  cases op.onReciveFn with
  | none => rfl
  | some fn =>
    show [Delivery.mk op (buffer.take op.size.toNat)] ++ [] = [⟨op, rebuilt op f⟩]
    rw [htake]
    rfl

theorem Answers.quiet_deliveries (h : Answers r e) (he : e.done? = none) : deliveries [r] = [] := by
  rw [deliveries_cons, h.quiet he]
  rfl

/-- **Deliveries are completed frames**, in order. -/
theorem deliveries_of_answers (h : List.Forall₂ Answers rs es)
    (hlen : ∀ d ∈ dones es, d.1.size.toNat ≤ 2 + d.2.body.length) :
    deliveries rs = (dones es).flatMap fun d => d.1.deliver (rebuilt d.1 d.2) := by
  induction h with
  | nil => rfl
  | @cons r e rs es ha _ ih =>
    have hsplit : dones (e :: es) = dones [e] ++ dones es := dones_append [e] es
    rw [hsplit] at hlen ⊢
    rw [List.flatMap_append, ← ih fun d hd => hlen d (List.mem_append_right _ hd),
      ← List.singleton_append, deliveries_append]
    congr 1
    rw [dones_singleton] at hlen ⊢
    cases he : e.done? with
    | none => exact ha.quiet_deliveries he
    | some d =>
      have hev := done_of_done? he
      rw [ha.deliver hev (hlen d (List.mem_append_left _ (by rw [he]; exact .head _)))]
      exact (List.append_nil _).symm

/-- A completed frame fills the size of its operation, if no operation takes any size. -/
theorem dones_size {operations : Fin packetTypeMax → Option (PacketOperations len)}
    {bs : List UInt8} {segs : List (Segment UInt8 (PacketOperations len))}
    (hacc : (rxScheme operations).Accounts bs es segs)
    (hfixed : ∀ t op, lookup operations t = some op → op.size ≠ packetSizeAny) :
    ∀ d ∈ dones es, d.1.size.toNat ≤ 2 + d.2.body.length := by
  intro d hd
  rw [hacc.dones] at hd
  obtain ⟨g, hg, rfl⟩ := List.mem_map.mp hd
  have hfits := (hacc.occurs g hg).fits
  have hle := size_le_payloadLength g.op.size
  show g.op.size.toNat ≤ 2 + g.frame.body.length
  rw [((accept_own (hfixed _ _ hfits.look)).mp hfits.accept).2]
  exact hle

theorem Answers.syncChecksum_iff (h : Answers r e) :
    r.status = .syncChecksum ↔ ∃ op f, e = .done op f := by
  rw [h.status]
  constructor
  · intro hs
    cases e with
    | done op f => exact ⟨op, f, rfl⟩
    | badTag t =>
      simp only [statusOf] at hs
      split_ifs at hs
    | _ => cases hs
  · rintro ⟨op, f, rfl⟩
    rfl

theorem Answers.status_of_quiet (h : Answers r e) (he : e.done? = none) :
    r.status ≠ .syncChecksum := by
  intro hs
  obtain ⟨op, f, rfl⟩ := h.syncChecksum_iff.mp hs
  cases he

theorem Answers.syncSize_iff (h : Answers r e) : r.status = .syncSize ↔ e = .len := by
  rw [h.status]
  constructor
  · intro hs
    cases e with
    | len => rfl
    | badTag t =>
      simp only [statusOf] at hs
      split_ifs at hs
    | _ => cases hs
  · rintro rfl
    rfl

/-- The answers since `SyncSize`, where the events have their last length symbol. -/
theorem answers_since_len {es₀ es₁ : List (Event UInt8 (PacketOperations len))}
    (h : List.Forall₂ Answers rs (es₀ ++ [.len] ++ es₁)) :
    ∃ rs₀ r rs₁, rs = rs₀ ++ r :: rs₁ ∧ rs₀.length = es₀.length ∧ r.status = .syncSize ∧
      List.Forall₂ Answers rs₁ es₁ := by
  have hlen := h.length_eq
  rw [List.append_assoc, List.singleton_append] at h hlen
  have hdrop := List.forall₂_drop es₀.length h
  rw [List.drop_left] at hdrop
  generalize hd : rs.drop es₀.length = rest at hdrop
  cases hdrop with
  | @cons r _ rs₁ _ hr hrs₁ =>
    refine ⟨rs.take es₀.length, r, rs₁, by rw [← hd, List.take_append_drop], ?_,
      hr.syncSize_iff.mpr rfl, hrs₁⟩
    rw [List.length_append, List.length_cons] at hlen
    rw [List.length_take]
    omega

theorem answers_status {r : RxReturn len} (h : List.Forall₂ Answers rs es) (hr : r ∈ rs) :
    ∃ e ∈ es, r.status = statusOf e := by
  obtain ⟨i, hi⟩ := List.getElem?_of_mem hr
  obtain ⟨e, he, ha⟩ := forall₂_getElem? h hi
  exact ⟨e, List.mem_of_getElem? he, ha.status⟩

end Answers

/-! ## Runs over a fixed table -/

section Runs

variable [DecidableEq β] {operations : Fin packetTypeMax → Option (PacketOperations len)}
  {s s' : RxState len} {ph : Phase UInt8 (PacketOperations len)} {bs w : List UInt8}
  {rs : List (RxReturn len)}

omit [DecidableEq β] in
theorem RxAt.hunting (h : s.h.rxFn = .rxAA) : RxAt s.h.operations s .hunt := ⟨rfl, trivial, h⟩

/-- **Progress**: over a fixed table the receiver is defined on every stream; it goes through
a trace of the hunter and keeps room for what it waits for. -/
theorem rxRun_total (hfix : FixedTable operations) (hr : RxAt operations s ph) (hroom : RoomAt s ph)
    (bs : List UInt8) : ∃ s' rs es ph', run rxByte s bs = some (s', rs) ∧
      Trace (rxScheme operations) ph bs es ph' ∧ RxAt operations s' ph' ∧ RoomAt s' ph' ∧
      List.Forall₂ Answers rs es := by
  induction bs using List.reverseRecOn with
  | nil => exact ⟨s, [], [], ph, rfl, .nil, hr, hroom, .nil⟩
  | append_singleton bs c ih =>
    obtain ⟨s₁, rs, es, ph₁, hrun, htr, hr₁, hroom₁, hans⟩ := ih
    have hfit := hfix.sizesFit hr₁.wf
    obtain ⟨s₂, r, he⟩ := rxByte_defined hr₁ hroom₁ hfit c
    obtain ⟨g, -, hr₂, ha⟩ := rxByte_sim hr₁ he
    exact ⟨s₂, rs ++ [r], _, _, run_append_of hrun (run_singleton he), htr.snoc g c, hr₂,
      rxByte_room hr₁ hroom₁ hfit he hr₂, List.rel_append hans (.cons ha .nil)⟩

/-- A phase that asks an operation for its buffer gets one that is large enough. -/
structure Serves (operations : Fin packetTypeMax → Option (PacketOperations len))
    (ph : Phase UInt8 (PacketOperations len)) : Prop where
  sizes : SizesFit operations ph
  gives : ∀ t op, ph = .len t op → op.NeverRefuses

omit [DecidableEq β] in
/-- Only an operation that is asked for its buffer has to serve. -/
theorem PacketOperations.Fixed.serves
    (h : ∀ t op, ph = .len t op → op.Fixed ∧ op.NeverRefuses) : Serves operations ph := by
  refine ⟨?_, fun t op he => (h t op he).2⟩
  cases ph with
  | len t op =>
    have hop := (h t op rfl).1
    exact ⟨hop.fits, fun c n hacc => (hop.accept_iff.mp hacc).2.le⟩
  | _ => trivial

/-- **One byte with room granted** has a defined effect and is one step of the hunter. -/
theorem rxByte_granted (hr : RxAt operations s ph) (hroom : RoomAt s ph)
    (hserve : Serves operations ph) (c : UInt8) :
    ∃ s' r, rxByte s c = some (s', r) ∧
      RxAt operations s' ((rxScheme operations).step true ph c).1 ∧
      RoomAt s' ((rxScheme operations).step true ph c).1 ∧
      Answers r ((rxScheme operations).step true ph c).2 := by
  obtain ⟨s', r, he⟩ := rxByte_defined hr hroom hserve.sizes c
  obtain ⟨g, hg, hr', hans⟩ := rxByte_sim hr he
  have hroom' := rxByte_room hr hroom hserve.sizes he hr'
  obtain rfl : g = true := by
    rcases hg with hg | ⟨t, op, hph, hnone⟩
    · exact hg
    · exact absurd hnone (hserve.gives t op hph s.mem)
  exact ⟨s', r, he, hr', hroom', hans⟩

/-- **Along a frame** whose operation has a buffer for it the receiver goes on, byte by byte, and
delivers nothing before the end. -/
theorem rxRun_along {op : PacketOperations len} (hop : op.Fixed) (hnn : op.NeverRefuses)
    {f : Frame UInt8} (hf : (rxScheme operations).Fits op f) {cs ds : List UInt8} (hds : ds ≠ [])
    (hr : RxAt operations s ph) (hroom : RoomAt s ph)
    (hah : (rxScheme operations).Ahead f ph (cs ++ ds)) :
    ∃ s' rs ph', run rxByte s cs = some (s', rs) ∧ RxAt operations s' ph' ∧ RoomAt s' ph' ∧
      (rxScheme operations).Ahead f ph' ds ∧ deliveries rs = [] := by
  induction cs generalizing s ph with
  | nil => exact ⟨s, [], ph, rfl, hr, hroom, hah, rfl⟩
  | cons c cs ih =>
    -- the operation of a phase along `f` is `op`
    have hserve : Serves operations ph := by
      refine PacketOperations.Fixed.serves ?_
      rintro t op' rfl
      have ht := hah.rest
      simp only [Scheme.pending, Scheme.wire, List.cons_append, List.nil_append,
        List.cons.injEq, true_and] at ht
      obtain rfl : op' = op := Option.some_inj.mp (hah.wf.symm.trans (ht.1 ▸ hf.look))
      exact ⟨hop, hnn⟩
    obtain ⟨s₁, r, he, hr₁, hroom₁, hans⟩ := rxByte_granted hr hroom hserve c
    rcases Scheme.Ahead.step hf hah with ⟨hnil, -⟩ | ⟨hquiet, hah₁⟩
    · exact absurd (List.append_eq_nil_iff.mp hnil).2 hds
    · obtain ⟨s₂, rs, ph₂, hrun, hr₂, hroom₂, hah₂, hdel⟩ := ih hr₁ hroom₁ hah₁
      refine ⟨s₂, r :: rs, ph₂, by rw [run_cons_of he, hrun]; rfl, hr₂, hroom₂, hah₂, ?_⟩
      rw [← List.singleton_append, deliveries_append, hans.quiet_deliveries hquiet, hdel]
      rfl

omit [DecidableEq β] in
/-- What is missing of a frame when only its stop byte is. -/
theorem ahead_stop {op : PacketOperations len} {f : Frame UInt8} {c : UInt8}
    (hf : (rxScheme operations).Fits op f) (hah : (rxScheme operations).Ahead f ph [c]) :
    ph = .stop f.tag op f.len f.body ∧ c = 0xFF := by
  have hwf := hah.wf
  have hr := hah.rest
  have hlen := congrArg List.length hr
  rw [List.length_append, Scheme.length_wire, List.length_singleton] at hlen
  cases ph with
  | body t op' x need got =>
    obtain ⟨h1, h2, h3⟩ := hwf
    simp only [Scheme.pending, Scheme.wire, List.cons_append, List.cons.injEq, true_and] at hr
    obtain ⟨rfl, rfl, -⟩ := hr
    obtain rfl : op' = op := Option.some_inj.mp (h1.symm.trans hf.look)
    have hn := Option.some_inj.mp (h2.symm.trans hf.accept)
    simp only [Scheme.pending, List.length_cons] at hlen
    omega
  | stop t op' x got =>
    simp only [Scheme.pending, Scheme.wire, List.cons_append, List.cons.injEq, true_and] at hr
    obtain ⟨rfl, rfl, hr⟩ := hr
    obtain rfl : op' = op := Option.some_inj.mp (hwf.1.symm.trans hf.look)
    obtain ⟨rfl, hc⟩ := List.append_inj' hr rfl
    exact ⟨rfl, (List.cons.inj hc).1⟩
  | _ =>
    simp only [Scheme.pending, List.length_nil, List.length_cons] at hlen
    omega

/-- **A frame is taken in** from any point of it on: its operation has a buffer for it, so the run
ends hunting, and the packet is delivered. -/
theorem rxRun_ahead {op : PacketOperations len} (hop : op.Fixed) (hnn : op.NeverRefuses)
    {f : Frame UInt8} (hf : (rxScheme operations).Fits op f) {cs : List UInt8}
    (hr : RxAt operations s ph) (hroom : RoomAt s ph) (hah : (rxScheme operations).Ahead f ph cs) :
    ∃ s' rs, run rxByte s cs = some (s', rs) ∧ RxAt operations s' .hunt ∧
      deliveries rs = op.deliver (rebuilt op f) := by
  obtain ⟨cs, c, rfl⟩ : ∃ ds c, cs = ds ++ [c] :=
    ⟨_, _, (List.dropLast_append_getLast (hah.ne_nil hf)).symm⟩
  obtain ⟨s₁, rs, ph₁, hrun, hr₁, hroom₁, hah₁, hquiet⟩ :=
    rxRun_along hop hnn hf (List.cons_ne_nil c []) hr hroom hah
  obtain ⟨rfl, rfl⟩ := ahead_stop hf hah₁
  have hserve : Serves operations (.stop f.tag op f.len f.body) :=
    PacketOperations.Fixed.serves fun t op' h => by cases h
  obtain ⟨s₂, r, he, hr₂, -, hans⟩ := rxByte_granted hr₁ hroom₁ hserve 0xFF
  have hstop : (0xFF : UInt8) = (rxScheme operations).stop := rfl
  have hstep : (rxScheme operations).step true (.stop f.tag op f.len f.body) 0xFF =
      (.hunt, .done op f) := by
    simp only [Scheme.step, if_pos hstop]
  rw [hstep] at hr₂ hans
  refine ⟨s₂, rs ++ [r], run_append_of hrun (run_singleton he), hr₂, ?_⟩
  rw [deliveries_append, hquiet, hans.deliver rfl (hop.fits_iff.mp hf).2.2.ge]
  rfl

/-- **From hunting** a frame is taken in, and the receiver hunts again. -/
theorem rxRun_frame {op : PacketOperations len} {payload : List UInt8} (hop : op.Fixed)
    (hnn : op.NeverRefuses)
    (hl : lookup operations op.type = some op) (hlen : 2 + payload.length = op.size.toNat)
    (hr : RxAt operations s .hunt) :
    ∃ s' rs, run rxByte s (frameOf op payload) = some (s', rs) ∧ RxAt operations s' .hunt ∧
      deliveries rs = op.deliver (packetOf op payload) := by
  have hf : (rxScheme operations).Fits op ⟨op.type, op.size, payload⟩ :=
    hop.fits_iff.mpr ⟨hl, rfl, hlen⟩
  have hrun := rxRun_ahead hop hnn hf hr trivial (Scheme.Ahead.start _)
  rw [rebuilt_of_length hlen] at hrun
  exact hrun

/-- **Noise**: a stream without a sync pair delivers nothing, and the receiver is left hunting if
it ends in an even number of `0xAA`. -/
theorem rxRun_noise (hr : RxAt operations s .hunt) (hn : ¬ [0xAA, 0x55] <:+: w) :
    ∃ s' rs, run rxByte s w = some (s', rs) ∧ deliveries rs = [] ∧
      RxAt operations s' (if Even (trail 0xAA w) then .hunt else .sync) := by
  induction w using List.reverseRecOn with
  | nil => exact ⟨s, [], rfl, rfl, hr⟩
  | append_singleton w c ih =>
    obtain ⟨s₁, rs₁, hrun, -, hr₁⟩ := ih fun hi => hn (hi.trans (List.infix_append' [] w [c]))
    have hdef : ∃ s' r, rxByte s₁ c = some (s', r) := by
      split_ifs at hr₁ with hev
      · exact rxByte_defined hr₁ trivial trivial c
      · exact rxByte_defined hr₁ trivial trivial c
    obtain ⟨s₂, r, he⟩ := hdef
    have hrun₂ := run_append_of hrun (run_singleton he)
    obtain ⟨es, ph', htr, hr₂, hans⟩ := rxRun_trace hr hrun₂
    obtain ⟨hdones, rfl⟩ := htr.noise hn
    refine ⟨s₂, rs₁ ++ [r], hrun₂, ?_, hr₂⟩
    rw [deliveries_of_answers hans (by rw [hdones]; simp), hdones]
    rfl

end Runs

/-! ## A listener with one operation -/

/-- A memory of one block of 256 bytes. -/
def oneBlock : Unit → ℕ := fun _ => 256

/-- An operation that receives into the one block there is, as the client's operations do. -/
def bufferedOp (type size : UInt8) : PacketOperations oneBlock where
  addr := 0
  type := type
  size := size
  initializeBufferFn _ _ _ m := (some ⟨(), 0⟩, m)
  initializeBufferArgs := none
  onReciveFn := some fun _ _ m => (.success, m)
  onReciveArgs := none

/-- A handler that was initialized and got one such operation installed. -/
def listener (type size : UInt8) : RxState oneBlock where
  h := (zeroHandler.initialized.installPacket (bufferedOp type size)).2
  mem := ⟨fun _ => List.replicate 256 0, fun _ => List.length_replicate⟩

section Listener

variable {type size t : UInt8} {op : PacketOperations oneBlock}

theorem bufferedOp_fits : (bufferedOp type size).BufferFits := by
  intro m p hp
  obtain rfl := Option.some_inj.mp hp
  have hlt := size.toNat_lt
  show 0 + size.toNat ≤ 256
  omega

theorem bufferedOp_fixed (h3 : 3 ≤ size.toNat) (h254 : size.toNat ≤ packetSizeMax) :
    (bufferedOp type size).Fixed := ⟨h3, h254, bufferedOp_fits⟩

theorem bufferedOp_neverRefuses : (bufferedOp type size).NeverRefuses := by
  intro m h
  cases h

theorem listener_installed (ht : type.toNat < packetTypeMax) :
    (zeroHandler : PacketHandler oneBlock).initialized.installPacket (bufferedOp type size) =
      (.success, (listener type size).h) := by
  have hs : (bufferedOp type size).type = type := rfl
  simp only [listener, PacketHandler.installPacket, hs, dif_pos ht]
  rfl

theorem listener_rxFn (ht : type.toNat < packetTypeMax) :
    (listener type size).h.rxFn = .rxAA := by
  have hi := @listener_installed type size ht
  obtain ⟨-, -, -, he⟩ := PacketHandler.installPacket_success hi
  rw [he]
  rfl

theorem listener_filled (ht : type.toNat < packetTypeMax) :
    Filled (listener type size).h.operations :=
  Filled.install Filled.empty (listener_installed ht)

theorem listener_lookup (ht : type.toNat < packetTypeMax) :
    lookup (listener type size).h.operations t = some op ↔
      t = type ∧ op = bufferedOp type size := by
  have hi := @listener_installed type size ht
  obtain ⟨-, -, hl, -⟩ := PacketHandler.installPacket_success hi
  have hnone : lookup (zeroHandler : PacketHandler oneBlock).initialized.operations t = none := by
    unfold lookup
    split_ifs <;> rfl
  rw [hl t, hnone]
  show (if t = type then some (bufferedOp type size) else none) = some op ↔ _
  split_ifs with he
  · rw [Option.some.injEq]
    exact ⟨fun h => ⟨he, h.symm⟩, fun h => h.2.symm⟩
  · exact ⟨(fun h => by cases h), fun h => absurd h.1 he⟩

theorem listener_fixed (ht : type.toNat < packetTypeMax) (h3 : 3 ≤ size.toNat)
    (h254 : size.toNat ≤ packetSizeMax) : FixedTable (listener type size).h.operations := by
  intro t op hl
  obtain ⟨-, rfl⟩ := (listener_lookup ht).mp hl
  exact bufferedOp_fixed h3 h254

end Listener

end Ulisse
