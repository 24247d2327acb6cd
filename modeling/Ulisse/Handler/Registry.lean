import Ulisse.Handler.RxRuns
import Ulisse.Lib.Registry

/-!
# Handler.Registry — the operation table as a partial map

`installPacket`, `uninstallPacket` and the receiver's lookup agree on what an unbound type is, so a
table that starts empty stays the partial map that the calls describe (`tableRun_represents`).
`PacketHandler_initialize` does not empty it: what the slots hold when it is called stays bound.
-/

namespace Ulisse

open BlockMem Run Registry

variable {β : Type} {len : β → ℕ}

/-- The types that `operations` has slots for. -/
def InRange (t : UInt8) : Prop := t.toNat < packetTypeMax

instance : DecidablePred InRange := fun t => inferInstanceAs (Decidable (t.toNat < packetTypeMax))

/-- The partial maps from types to operations. -/
abbrev TypeMap {β : Type} (len : β → ℕ) := Bindings InRange (PacketOperations len)

/-- A call that changes the table. -/
inductive TableCall {β : Type} (len : β → ℕ) where
  | installPacket (ops : PacketOperations len)
  | uninstallPacket (type : UInt8)

/-- What the call asks of the partial map. -/
def TableCall.request : TableCall len → Registry.Call UInt8 (PacketOperations len)
  | .installPacket ops => .install ops.type ops
  | .uninstallPacket type => .uninstall type

/-- The call at a handler. -/
def tableStep (h : PacketHandler len) : TableCall len → Option (PacketHandler len × PacketStatus)
  | .installPacket ops => some ((h.installPacket ops).2, (h.installPacket ops).1)
  | .uninstallPacket type => some ((h.uninstallPacket type).2, (h.uninstallPacket type).1)

/-- **Representation**: the table holds the bindings of `R`. -/
def Represents (h : PacketHandler len) (R : TypeMap len) : Prop :=
  ∀ t, lookup h.operations t = R.get t

variable [DecidableEq β]

/-- The handler is the registry `R`: its table, the calls on it and the receiver's lookup say so. -/
structure IsRegistry (h : PacketHandler len) (R : TypeMap len) : Prop where
  table : Represents h R
  success : ∀ c h' status, tableStep h c = some (h', status) →
    (status = .success ↔ R.accepts c.request)
  error : ∀ c h' status, tableStep h c = some (h', status) → status ≠ .success → h' = h
  others : ∀ c h' status, tableStep h c = some (h', status) →
    ∀ t, t ≠ c.request.key → lookup h'.operations t = lookup h.operations t
  unknown : ∀ (s : RxState len) (b : UInt8), s.h.operations = h.operations → s.h.rxFn = .rxType →
    ∃ s' r, rxByte s b = some (s', r) ∧
      (r.status = .unknownType ↔ InRange b ∧ R.get b = none)

/-- After initialization and any calls the handler is the registry that starts empty. -/
def RegistryFrom (h : PacketHandler len) : Prop :=
  ∀ calls : List (TableCall len), ∃ h' statuses,
    run tableStep h.initialized calls = some (h', statuses) ∧
      IsRegistry h' (Bindings.empty.after (calls.map TableCall.request))

section Table

variable {h h' : PacketHandler len} {R : TypeMap len} {c : TableCall len} {status : PacketStatus}

omit [DecidableEq β] in
/-- **Install**, by the binding of the operation's type. -/
theorem installPacket_cases (h : PacketHandler len) (ops : PacketOperations len) :
    (InRange ops.type ∧ lookup h.operations ops.type = none ∧
      (h.installPacket ops).1 = .success) ∨
    (¬ (InRange ops.type ∧ lookup h.operations ops.type = none) ∧
      (h.installPacket ops).1 ≠ .success ∧ (h.installPacket ops).2 = h) := by
  unfold PacketHandler.installPacket
  by_cases ht : ops.type.toNat < packetTypeMax
  · rw [dif_pos ht, lookup_of_lt _ ht]
    cases ho : h.operations ⟨ops.type.toNat, ht⟩ with
    | none => exact Or.inl ⟨ht, rfl, rfl⟩
    | some op => exact Or.inr ⟨fun h1 => (by cases h1.2), fun h1 => (by cases h1), rfl⟩
  · rw [dif_neg ht]
    exact Or.inr ⟨fun h1 => ht h1.1, fun h1 => (by cases h1), rfl⟩

omit [DecidableEq β] in
/-- **Uninstall**, by the binding of the type: a bound slot is emptied, and nothing else moves. -/
theorem uninstallPacket_cases (h : PacketHandler len) (type : UInt8) :
    ((∃ op, lookup h.operations type = some op) ∧ (h.uninstallPacket type).1 = .success ∧
      ∀ t, lookup (h.uninstallPacket type).2.operations t =
        if t = type then none else lookup h.operations t) ∨
    (lookup h.operations type = none ∧ (h.uninstallPacket type).1 ≠ .success ∧
      (h.uninstallPacket type).2 = h) := by
  unfold PacketHandler.uninstallPacket
  by_cases ht : type.toNat < packetTypeMax
  · rw [dif_pos ht, lookup_of_lt _ ht]
    cases ho : h.operations ⟨type.toNat, ht⟩ with
    | none => exact Or.inr ⟨rfl, fun h1 => (by cases h1), rfl⟩
    | some op =>
      refine Or.inl ⟨⟨op, rfl⟩, rfl, fun t => ?_⟩
      by_cases hlt : t.toNat < packetTypeMax
      · rw [lookup_of_lt _ hlt, lookup_of_lt _ hlt]
        by_cases he : t = type
        · subst he
          simp
        · have hne : (⟨t.toNat, hlt⟩ : Fin packetTypeMax) ≠ ⟨type.toNat, ht⟩ := fun hc =>
            he (UInt8.toNat_inj.mp (Fin.mk.inj hc))
          simp only [if_neg he, Function.update_of_ne hne]
      · rw [lookup, dif_neg hlt, lookup, dif_neg hlt, ite_self]
  · rw [dif_neg ht]
    exact Or.inr ⟨dif_neg ht, fun h1 => (by cases h1), rfl⟩

omit [DecidableEq β] in
/-- **One call** does to the table what it asks of the partial map. -/
theorem tableStep_represents (hR : Represents h R) (he : tableStep h c = some (h', status)) :
    (status = .success ↔ R.accepts c.request) ∧ (status ≠ .success → h' = h) ∧
      Represents h' (R.step c.request) := by
  cases c with
  | installPacket ops =>
    obtain ⟨rfl, rfl⟩ := result_unique he rfl
    rcases installPacket_cases h ops with ⟨ht, hnone, hok⟩ | ⟨hno, hbad, hsame⟩
    · rw [hR] at hnone
      have hacc : R.accepts (.install ops.type ops) := ⟨ht, hnone⟩
      refine ⟨iff_of_true hok hacc, fun hne => absurd hok hne, fun t => ?_⟩
      obtain ⟨-, -, hl, -⟩ := PacketHandler.installPacket_success (Prod.ext hok rfl)
      rw [hl t]
      split_ifs with hte
      · rw [hte]
        exact (R.step_install hacc).symm
      · rw [hR]
        exact (R.step_other hte).symm
    · rw [hR] at hno
      refine ⟨iff_of_false hbad hno, fun _ => hsame, ?_⟩
      rw [show R.step (TableCall.installPacket ops).request = R from R.step_refused hno, hsame]
      exact hR
  | uninstallPacket type =>
    obtain ⟨rfl, rfl⟩ := result_unique he rfl
    rcases uninstallPacket_cases h type with ⟨hbound, hok, hl⟩ | ⟨hnone, hbad, hsame⟩
    · rw [hR] at hbound
      refine ⟨iff_of_true hok hbound, fun hne => absurd hok hne, fun t => ?_⟩
      rw [hl t]
      split_ifs with hte
      · rw [hte]
        exact (R.step_uninstall type).symm
      · rw [hR]
        exact (R.step_other hte).symm
    · rw [hR] at hnone
      have hno : ¬ R.accepts (.uninstall type) := by
        rintro ⟨v, hv⟩
        rw [hnone] at hv
        cases hv
      refine ⟨iff_of_false hbad hno, fun _ => hsame, ?_⟩
      rw [show R.step (TableCall.uninstallPacket type).request = R from R.step_refused hno, hsame]
      exact hR

omit [DecidableEq β] in
/-- **Calls** on a table do to it what they ask of the partial map. -/
theorem tableRun_represents {calls : List (TableCall len)} {statuses : List PacketStatus}
    (hR : Represents h R) (hrun : run tableStep h calls = some (h', statuses)) :
    Represents h' (R.after (calls.map TableCall.request)) := by
  refine run_history (J := fun calls _ h' =>
    Represents h' (R.after (calls.map TableCall.request))) hR ?_ hrun
  intro calls statuses t c u status hJ he
  rw [List.map_append, List.map_singleton, Bindings.after_concat]
  exact (tableStep_represents hJ he).2.2

omit [DecidableEq β] in
theorem tableStep_defined (h : PacketHandler len) (c : TableCall len) :
    ∃ h' status, tableStep h c = some (h', status) := by
  cases c <;> exact ⟨_, _, rfl⟩

/-- **The receiver's lookup**: `_rxType` answers `UnknownType` for the types without operation. -/
theorem rxType_unknown {s : RxState len} (hfn : s.h.rxFn = .rxType) (b : UInt8) :
    ∃ s' r, rxByte s b = some (s', r) ∧
      (r.status = .unknownType ↔ InRange b ∧ lookup s.h.operations b = none) := by
  simp only [rxByte, hfn, rxType]
  by_cases hb : b.toNat < packetTypeMax
  · rw [dif_pos hb, lookup_of_lt _ hb]
    cases ho : s.h.operations ⟨b.toNat, hb⟩ with
    | none => exact ⟨_, _, rfl, iff_of_true rfl ⟨hb, rfl⟩⟩
    | some op => exact ⟨_, _, rfl, iff_of_false (fun h1 => (by cases h1)) fun h1 => (by cases h1.2)⟩
  · rw [dif_neg hb]
    exact ⟨_, _, rfl, iff_of_false (fun h1 => (by cases h1)) fun h1 => hb h1.1⟩

/-- A handler whose table holds the bindings is the registry. -/
theorem Represents.isRegistry (hR : Represents h R) : IsRegistry h R := by
  refine ⟨hR, fun c h' status he => (tableStep_represents hR he).1,
    fun c h' status he => (tableStep_represents hR he).2.1, fun c h' status he t ht => ?_,
    fun s b hs hfn => ?_⟩
  · rw [(tableStep_represents hR he).2.2 t, hR t]
    exact R.step_other ht
  · obtain ⟨s', r, he, hiff⟩ := rxType_unknown hfn b
    rw [hs, hR] at hiff
    exact ⟨s', r, he, hiff⟩

end Table

/-- **The registry starts empty** exactly if the table was empty before the initialization. -/
theorem registry_iff (h : PacketHandler len) :
    RegistryFrom h ↔ ∀ t, h.operations t = none := by
  constructor
  · intro hreg t
    obtain ⟨h', statuses, hrun, his⟩ := hreg []
    obtain ⟨rfl, -⟩ := run_nil_some hrun
    have hlt : t.val < 256 := Nat.lt_of_lt_of_le t.isLt (by decide)
    have hval : (UInt8.ofNat t.val).toNat = t.val := by
      rw [UInt8.toNat_ofNat']
      omega
    have ht : (UInt8.ofNat t.val).toNat < packetTypeMax := by
      rw [hval]
      exact t.isLt
    have hget := his.table (UInt8.ofNat t.val)
    rw [lookup_of_lt _ ht] at hget
    rw [← show (⟨(UInt8.ofNat t.val).toNat, ht⟩ : Fin packetTypeMax) = t from Fin.ext hval]
    exact hget
  · intro hnone calls
    have hempty : Represents h.initialized (Bindings.empty : TypeMap len) := by
      intro t
      unfold lookup
      split_ifs
      · exact hnone _
      · rfl
    obtain ⟨h', statuses, hrun, -⟩ := run_total (I := fun _ => True)
      (fun h c _ => (tableStep_defined h c).imp fun _ h1 => h1.imp fun _ h2 => ⟨h2, trivial⟩)
      (s := h.initialized) trivial calls
    exact ⟨h', statuses, hrun, (tableRun_represents hempty hrun).isRegistry⟩

/-- A handler that is initialized again keeps what was installed: the type is bound before any call,
and cannot be installed. -/
theorem registry_counterexample :
    ((listener 2 6).h.initialized.installPacket (bufferedOp 2 6)).1 = .packetInstallError ∧
    ¬ RegistryFrom (listener 2 6).h := by
  refine ⟨by decide, fun hreg => ?_⟩
  obtain ⟨h', statuses, hrun, his⟩ := hreg []
  obtain ⟨rfl, -⟩ := run_nil_some hrun
  have hbad := (his.success (.installPacket (bufferedOp 2 6)) _ _ rfl).mpr ⟨by decide, rfl⟩
  revert hbad
  decide

end Ulisse
