import Ulisse.Handler.Registry

/-!
# Handler.Uninstall — table changes while a frame is received

The receiver looks an operation up once, at the type byte, and keeps the pointer until the trailer.
`Needs` says which operation the frame under way is still going to use.  Bytes and installations
keep it bound (`handlerStep_needs`); `PacketHandler_uninstallPacket` does not look whether the
operation it removes is needed.
-/

namespace Ulisse

open BlockMem Run

variable {β : Type} {len : β → ℕ}

/-- A call of one of the three functions. -/
inductive HandlerCall {β : Type} (len : β → ℕ) where
  | table (c : TableCall len)
  | rxByte (b : UInt8)

/-- Its answer. -/
inductive HandlerReturn {β : Type} (len : β → ℕ) where
  | table (status : PacketStatus)
  | rxByte (r : RxReturn len)

/-- The call at a handler and the memory around it. -/
def handlerStep [DecidableEq β] (s : RxState len) :
    HandlerCall len → Option (RxState len × HandlerReturn len)
  | .table c => (tableStep s.h c).map fun q => (⟨q.1, s.mem⟩, .table q.2)
  | .rxByte b => (rxByte s b).map fun q => (q.1, .rxByte q.2)

/-- The operation stands in `operations[]`. -/
def Bound (h : PacketHandler len) (op : PacketOperations len) : Prop :=
  ∃ t, lookup h.operations t = some op

/-- The operation that a call goes through. -/
def Call.op : Call len → PacketOperations len
  | .initializeBuffer op => op
  | .onRecive op _ _ => op

/-- Every use is of a bound operation: `_rxSize` reads the size and the type of the current one, and
`initialize_buffer_fn` and `on_recive_fn` are called through the one that the answer names. -/
def UsesBound [DecidableEq β] (s : RxState len) : HandlerCall len → Prop
  | .table _ => True
  | .rxByte b =>
    (s.h.rxFn = .rxSize → ∀ op, s.h.rxCurrentOp = some op → Bound s.h op) ∧
    ∀ s' r call, rxByte s b = some (s', r) → call ∈ r.calls → Bound s.h call.op

/-- The frame under way still has a use for the operation. -/
def Needs (h : PacketHandler len) (op : PacketOperations len) : Prop :=
  h.rxCurrentOp = some op ∧
    (h.rxFn = .rxSize ∨ (h.rxFn = .rxPayload ∨ h.rxFn = .rxChecksum) ∧ op.onReciveFn.isSome)

/-- The call does not uninstall an operation that is needed. -/
def SparesNeeded (s : RxState len) : HandlerCall len → Prop
  | .table (.uninstallPacket type) =>
    ∀ op, Needs s.h op → lookup s.h.operations type ≠ some op
  | _ => True

section Step

variable {s s' : RxState len} {h h' : PacketHandler len} {b : UInt8} {r : RxReturn len}
  {op : PacketOperations len}

theorem not_needs (hfn : h.rxFn = .rxAA ∨ h.rxFn = .rx55 ∨ h.rxFn = .rxType) : ¬ Needs h op := by
  rintro ⟨-, h1 | ⟨h1 | h1, -⟩⟩ <;> rcases hfn with h2 | h2 | h2 <;> rw [h2] at h1 <;> cases h1

variable [DecidableEq β]

/-- **What a byte makes needed** was needed before, or was just looked up. -/
theorem rxByte_needs (he : rxByte s b = some (s', r)) (hn : Needs s'.h op) :
    Needs s.h op ∨ lookup s.h.operations b = some op := by
  cases rxByte_step he with
  | syncType op' hfn hl =>
    obtain rfl : op' = op := Option.some_inj.mp hn.1
    exact Or.inr hl
  | syncSize op' p m m' hfn ho hok hp h1 h2 => exact Or.inl ⟨hn.1, Or.inl hfn⟩
  | syncPayload p m hfn hp h1 hleft =>
    -- the size is not read again
    obtain ⟨ho, hsize | ⟨-, hon⟩⟩ := hn
    · have hsame : s.h.rxFn = .rxSize := hsize
      rw [hfn] at hsame
      cases hsame
    · exact Or.inl ⟨ho, Or.inr ⟨Or.inl hfn, hon⟩⟩
  | syncPayloadComplete p m hfn hp h1 hleft =>
    obtain ⟨ho, hsize | ⟨-, hon⟩⟩ := hn
    · cases hsize
    · exact Or.inl ⟨ho, Or.inr ⟨Or.inl hfn, hon⟩⟩
  | syncAA hfn hc => exact absurd hn (not_needs (Or.inr (Or.inl rfl)))
  | sync55 hfn hc => exact absurd hn (not_needs (Or.inr (Or.inr rfl)))
  | lostAA hfn hc => exact Or.inl hn
  | _ => exact absurd hn (not_needs (Or.inl rfl))

/-- **Calls** go through the operation that is needed. -/
theorem rxByte_calls_needed (he : rxByte s b = some (s', r)) {call : Call len}
    (hc : call ∈ r.calls) : Needs s.h call.op := by
  cases rxByte_step he with
  | rxBufferError op hfn ho hok hp =>
    rw [List.mem_singleton.mp hc]
    exact ⟨ho, Or.inl hfn⟩
  | syncSize op p m m' hfn ho hok hp h1 h2 =>
    rw [List.mem_singleton.mp hc]
    exact ⟨ho, Or.inl hfn⟩
  | recive op f hfn hb ho hon =>
    rw [List.mem_singleton.mp hc]
    exact ⟨ho, Or.inr ⟨Or.inr hfn, Option.isSome_of_mem hon⟩⟩
  | _ => cases hc

omit [DecidableEq β] in
/-- An install does not unbind. -/
theorem installPacket_bound {ops : PacketOperations len} (hb : Bound h op) :
    Bound (h.installPacket ops).2 op := by
  rcases installPacket_cases h ops with ⟨-, -, hok⟩ | ⟨-, -, hsame⟩
  · obtain ⟨-, hnone, hl, -⟩ := PacketHandler.installPacket_success (Prod.ext hok rfl)
    obtain ⟨t, ht⟩ := hb
    have hne : t ≠ ops.type := by
      rintro rfl
      rw [hnone] at ht
      cases ht
    exact ⟨t, by rw [hl, if_neg hne]; exact ht⟩
  · rw [hsame]
    exact hb

omit [DecidableEq β] in
/-- Nor does an uninstall unbind what stood elsewhere. -/
theorem uninstallPacket_bound {type : UInt8} (hb : Bound h op)
    (hne : lookup h.operations type ≠ some op) : Bound (h.uninstallPacket type).2 op := by
  rcases uninstallPacket_cases h type with ⟨-, -, hl⟩ | ⟨-, -, hsame⟩
  · obtain ⟨t, ht⟩ := hb
    have hte : t ≠ type := by
      rintro rfl
      exact hne ht
    exact ⟨t, by rw [hl, if_neg hte]; exact ht⟩
  · rw [hsame]
    exact hb

omit [DecidableEq β] in
/-- Changing the table leaves everything else alone. -/
theorem tableStep_change {c : TableCall len} {status : PacketStatus}
    (he : tableStep h c = some (h', status)) : ∃ operations, h' = { h with operations } := by
  cases c with
  | installPacket ops =>
    obtain ⟨rfl, -⟩ := result_unique he rfl
    unfold PacketHandler.installPacket
    split_ifs with ht
    · cases h.operations ⟨ops.type.toNat, ht⟩ <;> exact ⟨_, rfl⟩
    · exact ⟨_, rfl⟩
  | uninstallPacket type =>
    obtain ⟨rfl, -⟩ := result_unique he rfl
    unfold PacketHandler.uninstallPacket
    split_ifs with ht
    · cases h.operations ⟨type.toNat, ht⟩ <;> exact ⟨_, rfl⟩
    · exact ⟨_, rfl⟩

/-- **One call** that spares what is needed keeps it bound. -/
theorem handlerStep_needs {c : HandlerCall len} {a : HandlerReturn len}
    (hI : ∀ op, Needs s.h op → Bound s.h op) (hspare : SparesNeeded s c)
    (he : handlerStep s c = some (s', a)) (op : PacketOperations len) (hn : Needs s'.h op) :
    Bound s'.h op := by
  cases c with
  | table c =>
    obtain ⟨⟨h', status⟩, hstep, hq⟩ := Option.map_eq_some_iff.mp he
    obtain ⟨rfl, -⟩ := Prod.mk.inj hq
    have hneeds : Needs s.h op := by
      obtain ⟨_, hh⟩ := tableStep_change hstep
      have hn' : Needs h' op := hn
      rw [hh] at hn'
      exact hn'
    cases c with
    | installPacket ops =>
      obtain ⟨rfl, -⟩ := result_unique hstep rfl
      exact installPacket_bound (hI op hneeds)
    | uninstallPacket type =>
      obtain ⟨rfl, -⟩ := result_unique hstep rfl
      exact uninstallPacket_bound (hI op hneeds) (hspare op hneeds)
  | rxByte b =>
    obtain ⟨⟨t, r⟩, hstep, hq⟩ := Option.map_eq_some_iff.mp he
    obtain ⟨rfl, -⟩ := Prod.mk.inj hq
    obtain ⟨_, _, _, _, _, _, hh⟩ := rxByte_change hstep
    have hops : t.h.operations = s.h.operations := by rw [hh]
    rw [Bound, hops]
    rcases rxByte_needs hstep hn with hn | hl
    · exact hI op hn
    · exact ⟨b, hl⟩

end Step

variable [DecidableEq β]

/-- **An uninstalled operation is not used** in any run that starts from an initialized handler and
never uninstalls an operation that the frame under way needs. -/
theorem uninstalled_unused (h : PacketHandler len) (m : Mem UInt8 len)
    (calls : List (HandlerCall len))
    (hspare : Along handlerStep (fun _ _ => SparesNeeded) ⟨h.initialized, m⟩ calls) :
    Along handlerStep (fun _ _ => UsesBound) ⟨h.initialized, m⟩ calls := by
  refine Along.safe (I := fun s => ∀ op, Needs s.h op → Bound s.h op)
    (fun op hn => absurd hn (not_needs (Or.inl rfl)))
    (fun s c s' a hI hs he => handlerStep_needs hI hs he) ?_ hspare
  intro s c hI
  cases c with
  | table c => trivial
  | rxByte b =>
    exact ⟨fun hfn op ho => hI op ⟨ho, Or.inl hfn⟩,
      fun s' r call he hc => hI call.op (rxByte_calls_needed he hc)⟩

/-- An initialized handler, with a memory for the buffer that `bufferedOp` receives into. -/
def idleHandler : RxState oneBlock := ⟨zeroHandler.initialized, (listener 2 6).mem⟩

/-- A frame of type `2` up to its trailer, with calls `cs` in the middle of its payload. -/
def interrupted (cs : List (HandlerCall oneBlock)) : List (HandlerCall oneBlock) :=
  [.table (.installPacket (bufferedOp 2 6)), .rxByte 0xAA, .rxByte 0x55, .rxByte 2, .rxByte 6,
    .rxByte 1] ++ cs ++ [.rxByte 2, .rxByte 3, .rxByte 4]

/-- A test for `SparesNeeded`: no operation is current, none is removed, or they differ in type. -/
def sparesCheck (s : RxState len) : HandlerCall len → Bool
  | .table (.uninstallPacket type) =>
    match s.h.rxCurrentOp, lookup s.h.operations type with
    | some op, some op' => op.type != op'.type
    | _, _ => true
  | _ => true

omit [DecidableEq β] in
theorem sparesCheck_sound (s : RxState len) (c : HandlerCall len) (h : sparesCheck s c = true) :
    SparesNeeded s c := by
  cases c with
  | rxByte b => trivial
  | table c =>
    cases c with
    | installPacket ops => trivial
    | uninstallPacket type =>
      rintro op ⟨ho, -⟩ hl
      simp [sparesCheck, ho, hl] at h

/-- Another type may come and go while a frame is received. -/
theorem uninstalled_unused_other :
    Along handlerStep (fun _ _ => UsesBound) idleHandler
      (interrupted [.table (.installPacket (bufferedOp 3 6)), .table (.uninstallPacket 3)] ++
        [.rxByte 0xFF]) :=
  uninstalled_unused zeroHandler (listener 2 6).mem _ (Along.of_check sparesCheck_sound (by decide))

/-- A frame whose operation is uninstalled in the middle is delivered through it. -/
theorem uninstalled_counterexample :
    (∃ t os s' r, run handlerStep idleHandler
        (interrupted [.table (.uninstallPacket 2)]) = some (t, os) ∧
      (∀ u, lookup t.h.operations u = none) ∧ rxByte t 0xFF = some (s', r) ∧
      deliveries [r] = [⟨bufferedOp 2 6, [2, 6, 1, 2, 3, 4]⟩]) ∧
    ¬ Along handlerStep (fun _ _ => UsesBound) idleHandler
      (interrupted [.table (.uninstallPacket 2)] ++ [.rxByte 0xFF]) := by
  obtain ⟨t, os, hrun⟩ : ∃ t os, run handlerStep idleHandler
      (interrupted [.table (.uninstallPacket 2)]) = some (t, os) := ⟨_, _, rfl⟩
  have hempty : ∀ u, lookup t.h.operations u = none := by
    have hnone : (run handlerStep idleHandler
        (interrupted [.table (.uninstallPacket 2)])).map
          (fun q => decide (∀ u : Fin packetTypeMax, (q.1.h.operations u).isNone)) =
        some true := by decide
    rw [hrun, Option.map_some, Option.some_inj, decide_eq_true_eq] at hnone
    intro u
    unfold lookup
    split_ifs with hu
    · exact Option.isNone_iff_eq_none.mp (hnone ⟨u.toNat, hu⟩)
    · rfl
  obtain ⟨s', r, he, hdel⟩ : ∃ s' r, rxByte t 0xFF = some (s', r) ∧
      deliveries [r] = [⟨bufferedOp 2 6, [2, 6, 1, 2, 3, 4]⟩] := by
    have hlast : (run handlerStep idleHandler
        (interrupted [.table (.uninstallPacket 2)])).bind
          (fun q => (rxByte q.1 0xFF).map fun x => deliveries [x.2]) =
        some [⟨bufferedOp 2 6, [2, 6, 1, 2, 3, 4]⟩] := rfl
    rw [hrun, Option.bind_some] at hlast
    obtain ⟨⟨s', r⟩, he, hdel⟩ := Option.map_eq_some_iff.mp hlast
    exact ⟨s', r, he, hdel⟩
  refine ⟨⟨t, os, s', r, hrun, hempty, he, hdel⟩, fun hall => ?_⟩
  have huse := hall.last hrun
  -- the delivery is made by a call, and no operation is bound
  rcases hcalls : r.calls with _ | ⟨call, calls⟩
  · rw [deliveries_cons, hcalls] at hdel
    cases hdel
  · obtain ⟨u, hu⟩ := huse.2 s' r call he (by rw [hcalls]; exact List.mem_cons_self)
    rw [hempty u] at hu
    cases hu

end Ulisse
