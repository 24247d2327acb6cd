import Mathlib.Logic.Basic
import Ulisse.Lib.Run

/-!
# Lib.Device — programs that talk to a device

A driver asks its device (reads a volatile register), tells it something (writes one), and polls it:
asks again until an answer will do, which may be never.  `Prog` is such a program, `step` what is
left of it after one event; the device may answer anything.  A monitor `watch` follows the events
and may object.  `wp` is the weakest precondition of a program for a monitor: from a state of the
monitor that satisfies it no run is objected to, however far it gets (`wp_sound`), and it is composed
by the rules below, with an invariant for each poll.  `Live` programs can always be brought to their
end by a device that answers well (`Live.ends`).
-/

namespace Device

open Run

/-- A question with its answer, or something told. -/
inductive Event (Q A E : Type) where
  | asked (q : Q) (a : A)
  | told (e : E)
  deriving DecidableEq, Repr

/-- A program; `fail` is a step without a defined result. -/
inductive Prog (Q A E α : Type) where
  | ret (a : α)
  | fail
  | ask (q : Q) (k : A → Prog Q A E α)
  | tell (e : E) (k : Prog Q A E α)
  | poll (q : Q) (good : A → Bool) (k : A → Prog Q A E α)

namespace Prog

variable {Q A E α β : Type}

/-- One program after the other. -/
def bind : Prog Q A E α → (α → Prog Q A E β) → Prog Q A E β
  | ret a, f => f a
  | fail, _ => fail
  | ask q k, f => ask q fun a => (k a).bind f
  | tell e k, f => tell e (k.bind f)
  | poll q good k, f => poll q good fun a => (k a).bind f

instance : Monad (Prog Q A E) where
  pure := ret
  bind := bind

/-- The answer to a question. -/
def read (q : Q) : Prog Q A E A := ask q ret

/-- Telling something. -/
def order (e : E) : Prog Q A E Unit := tell e (ret ())

/-- Asking until the answer is good. -/
def await (q : Q) (good : A → Bool) : Prog Q A E Unit := poll q good fun _ => ret ()

/-! ## Runs -/

variable [DecidableEq Q] [DecidableEq E]

/-- What is left after one event, if the program can take part in it. -/
def step : Prog Q A E α → Event Q A E → Option (Prog Q A E α × Unit)
  | ask q k, .asked q' a => if q = q' then some (k a, ()) else none
  | tell e k, .told e' => if e = e' then some (k, ()) else none
  | poll q good k, .asked q' a =>
    if q = q' then some (if good a then k a else poll q good k, ()) else none
  | _, _ => none

/-- A program that tells something takes part in nothing else. -/
theorem told_of_step {e : E} {k p : Prog Q A E α} {e' : Event Q A E}
    (h : step (tell e k) e' = some (p, ())) : e' = .told e := by
  cases e' with
  | asked q a => cases h
  | told e' =>
    rw [step] at h
    split_ifs at h with he
    rw [he]

/-- A program that polls takes part in nothing but its question. -/
theorem asked_of_step {q : Q} {good : A → Bool} {k : A → Prog Q A E α} {p : Prog Q A E α}
    {e : Event Q A E} (h : step (poll q good k) e = some (p, ())) : ∃ a, e = .asked q a := by
  cases e with
  | told e => cases h
  | asked q' a =>
    by_cases hq : q = q'
    · exact ⟨a, by rw [hq]⟩
    · rw [step, if_neg hq] at h
      cases h

/-- What a program that has come to its end leaves. -/
def result? : Prog Q A E α → Option α
  | ret a => some a
  | _ => none

/-- The events `es` lead from `p` to `p'`. -/
def Leads (p : Prog Q A E α) (es : List (Event Q A E)) (p' : Prog Q A E α) : Prop :=
  ∃ os, run step p es = some (p', os)

section Leads

variable {p p' p'' : Prog Q A E α} {e : Event Q A E} {es es' : List (Event Q A E)}

theorem Leads.refl (p : Prog Q A E α) : Leads p [] p := ⟨[], rfl⟩

theorem Leads.cons (h : step p e = some (p', ())) (h' : Leads p' es p'') :
    Leads p (e :: es) p'' := by
  obtain ⟨os, hrun⟩ := h'
  exact ⟨() :: os, by rw [run_cons_of h, hrun]; rfl⟩

theorem Leads.append (h : Leads p es p') (h' : Leads p' es' p'') : Leads p (es ++ es') p'' := by
  obtain ⟨os, hrun⟩ := h
  obtain ⟨os', hrun'⟩ := h'
  exact ⟨os ++ os', run_append_of hrun hrun'⟩

theorem leads_cons : Leads p (e :: es) p'' ↔ ∃ p', step p e = some (p', ()) ∧ Leads p' es p'' := by
  constructor
  · rintro ⟨os, hrun⟩
    obtain ⟨p', o, os', h1, h2, -⟩ := run_cons_some.mp hrun
    exact ⟨p', h1, os', h2⟩
  · rintro ⟨p', h1, h2⟩
    exact h2.cons h1

/-- A run to the end, computed. -/
theorem leads_result {γ : Type} {f : α → γ} {c : γ}
    (h : ((run step p es).bind fun r => r.1.result?).map f = some c) :
    ∃ a, Leads p es (ret a) ∧ f a = c := by
  obtain ⟨a, ha, hc⟩ := Option.map_eq_some_iff.mp h
  obtain ⟨⟨q, os⟩, hrun, hres⟩ := Option.bind_eq_some_iff.mp ha
  cases q <;> cases hres
  exact ⟨a, ⟨os, hrun⟩, hc⟩

end Leads

/-! ## Monitors -/

section Monitor

variable {μ : Type} (watch : μ → Event Q A E → Option μ)

/-- The monitor after a run; `none` once it has objected. -/
def watched (m : μ) : List (Event Q A E) → Option μ
  | [] => some m
  | e :: es => (watch m e).bind fun m' => watched m' es

/-- The monitor accepts the event, and then `P` holds of it. -/
def Accepts (m : μ) (e : Event Q A E) (P : μ → Prop) : Prop := ∃ m', watch m e = some m' ∧ P m'

/-- **The weakest precondition**: from a monitor state that satisfies it no run of the program is
objected to, and a result `a` is reached in a state with `R a`. -/
def wp : Prog Q A E α → (α → μ → Prop) → μ → Prop
  | ret a, R, m => R a m
  | fail, _, _ => False
  | ask q k, R, m => ∀ a, Accepts watch m (.asked q a) (wp (k a) R)
  | tell e k, R, m => Accepts watch m (.told e) (wp k R)
  | poll q good k, R, m => ∃ I : μ → Prop, I m ∧ ∀ m, I m → ∀ a,
      Accepts watch m (.asked q a) fun m' => if good a then wp (k a) R m' else I m'

variable {watch} {p p' : Prog Q A E α} {R R' : α → μ → Prop} {m m' : μ} {e : Event Q A E}
  {es : List (Event Q A E)}

omit [DecidableEq Q] [DecidableEq E] in
theorem Accepts.mono {P P' : μ → Prop} (h : Accepts watch m e P) (hP : ∀ m, P m → P' m) :
    Accepts watch m e P' := by
  obtain ⟨m', h1, h2⟩ := h
  exact ⟨m', h1, hP m' h2⟩

omit [DecidableEq Q] [DecidableEq E] in
theorem wp_mono (h : wp watch p R m) (hR : ∀ a m, R a m → R' a m) : wp watch p R' m := by
  induction p generalizing m with
  | ret a => exact hR a m h
  | fail => exact h
  | ask q k ih => exact fun a => (h a).mono fun m' => ih a
  | tell e k ih => exact Accepts.mono h fun m' => ih
  | poll q good k ih =>
    obtain ⟨I, hI, hstep⟩ := h
    refine ⟨I, hI, fun m' hm' a => (hstep m' hm' a).mono fun m'' hm'' => ?_⟩
    split_ifs at hm'' ⊢
    · exact ih a hm''
    · exact hm''

omit [DecidableEq Q] [DecidableEq E] in
/-- **Rule for one program after the other**. -/
theorem wp_bind {f : α → Prog Q A E β} {S : β → μ → Prop}
    (h : wp watch p (fun a => wp watch (f a) S) m) : wp watch (p >>= f) S m := by
  induction p generalizing m with
  | ret a => exact h
  | fail => exact h
  | ask q k ih => exact fun a => (h a).mono fun m' => ih a
  | tell e k ih => exact Accepts.mono h fun m' => ih
  | poll q good k ih =>
    obtain ⟨I, hI, hstep⟩ := h
    refine ⟨I, hI, fun m' hm' a => (hstep m' hm' a).mono fun m'' hm'' => ?_⟩
    split_ifs at hm'' ⊢
    · exact ih a hm''
    · exact hm''

omit [DecidableEq Q] [DecidableEq E] in
/-- **Rule for a program whose meaning is known**. -/
theorem wp_seq {f : α → Prog Q A E β} {S : β → μ → Prop} (h : wp watch p R m)
    (hf : ∀ a m', R a m' → wp watch (f a) S m') : wp watch (p >>= f) S m :=
  wp_bind (wp_mono h hf)

omit [DecidableEq Q] [DecidableEq E] in
/-- **Rule for a question**. -/
theorem wp_read {q : Q} {f : A → Prog Q A E β} {S : β → μ → Prop} :
    wp watch (read q >>= f) S m ↔ ∀ a, Accepts watch m (.asked q a) (wp watch (f a) S) := Iff.rfl

omit [DecidableEq Q] [DecidableEq E] in
/-- **Rule for telling**. -/
theorem wp_order {e : E} {f : Unit → Prog Q A E β} {S : β → μ → Prop} :
    wp watch (order e >>= f) S m ↔ Accepts watch m (.told e) (wp watch (f ()) S) := Iff.rfl

omit [DecidableEq Q] [DecidableEq E] in
/-- **Rule for a poll** that the monitor takes no notice of before the good answer. -/
theorem wp_await {q : Q} {good : A → Bool} {S : Unit → μ → Prop}
    (hstep : ∀ a, Accepts watch m (.asked q a) fun m' => if good a then S () m' else m' = m) :
    wp watch (await q good) S m := by
  refine ⟨fun m' => m' = m, rfl, ?_⟩
  rintro m' rfl a
  exact hstep a

/-- All that the program can ask, be answered and tell satisfies `P`. -/
def Emits (P : Event Q A E → Prop) : Prog Q A E α → Prop
  | ret _ => True
  | fail => False
  | ask q k => ∀ a, P (.asked q a) ∧ Emits P (k a)
  | tell e k => P (.told e) ∧ Emits P k
  | poll q _ k => ∀ a, P (.asked q a) ∧ Emits P (k a)

omit [DecidableEq Q] [DecidableEq E] in
theorem emits_read {P : Event Q A E → Prop} {q : Q} {f : A → Prog Q A E β} :
    Emits P (read q >>= f) ↔ ∀ a, P (.asked q a) ∧ Emits P (f a) := Iff.rfl

omit [DecidableEq Q] [DecidableEq E] in
theorem Emits.bind {P : Event Q A E → Prop} {f : α → Prog Q A E β} (h : Emits P p)
    (hf : ∀ a, Emits P (f a)) : Emits P (p >>= f) := by
  induction p with
  | ret a => exact hf a
  | fail => exact h.elim
  | ask q k ih => exact fun a => ⟨(h a).1, ih a (h a).2⟩
  | tell e k ih => exact ⟨h.1, ih h.2⟩
  | poll q good k ih => exact fun a => ⟨(h a).1, ih a (h a).2⟩

omit [DecidableEq Q] [DecidableEq E] in
/-- **Frame rule**: what all its events keep, the program keeps. -/
theorem wp_frame {P : Event Q A E → Prop} {I : μ → Prop} (h : Emits P p)
    (hP : ∀ m e, I m → P e → Accepts watch m e I) (hI : I m) : wp watch p (fun _ => I) m := by
  induction p generalizing m with
  | ret a => exact hI
  | fail => exact h
  | ask q k ih => exact fun a => (hP m _ hI (h a).1).mono fun m' hm' => ih a (h a).2 hm'
  | tell e k ih => exact (hP m _ hI h.1).mono fun m' hm' => ih h.2 hm'
  | poll q good k ih =>
    refine ⟨I, hI, fun m' hm' a => (hP m' _ hm' (h a).1).mono fun m'' hm'' => ?_⟩
    split_ifs
    · exact ih a (h a).2 hm''
    · exact hm''

/-- **One event** takes the precondition to that of what is left. -/
theorem wp_step (h : wp watch p R m) (hs : step p e = some (p', ())) :
    Accepts watch m e (wp watch p' R) := by
  cases p with
  | ret a => cases hs
  | fail => cases hs
  | ask q k =>
    cases e with
    | told e => cases hs
    | asked q' a =>
      rw [step] at hs
      split_ifs at hs with hq
      obtain ⟨rfl, -⟩ := Prod.mk.inj (Option.some_inj.mp hs)
      subst hq
      exact h a
  | tell e' k =>
    cases e with
    | asked q' a => cases hs
    | told e =>
      rw [step] at hs
      split_ifs at hs with he
      obtain ⟨rfl, -⟩ := Prod.mk.inj (Option.some_inj.mp hs)
      subst he
      exact h
  | poll q good k =>
    cases e with
    | told e => cases hs
    | asked q' a =>
      obtain ⟨I, hI, hstep⟩ := h
      rw [step] at hs
      split_ifs at hs with hq hgood
      · obtain ⟨rfl, -⟩ := Prod.mk.inj (Option.some_inj.mp hs)
        subst hq
        refine (hstep m hI a).mono fun m' hm' => ?_
        rw [if_pos hgood] at hm'
        exact hm'
      · obtain ⟨rfl, -⟩ := Prod.mk.inj (Option.some_inj.mp hs)
        subst hq
        refine (hstep m hI a).mono fun m' hm' => ?_
        rw [if_neg hgood] at hm'
        exact ⟨I, hm', hstep⟩

/-- **Soundness**: no run is objected to, and what is left of the program still has its
precondition. -/
theorem wp_sound (h : wp watch p R m) (hrun : Leads p es p') :
    ∃ m', watched watch m es = some m' ∧ wp watch p' R m' := by
  induction es generalizing p m with
  | nil =>
    obtain ⟨os, hrun⟩ := hrun
    exact ⟨m, rfl, (run_nil_some hrun).1 ▸ h⟩
  | cons e es ih =>
    obtain ⟨q, hs, hrest⟩ := leads_cons.mp hrun
    obtain ⟨m₁, hm₁, hq⟩ := wp_step h hs
    obtain ⟨m', hm', hp'⟩ := ih hq hrest
    exact ⟨m', by rw [watched, hm₁]; exact hm', hp'⟩

end Monitor

/-! ## Progress -/

/-- Every poll has a good answer, whatever was answered before. -/
def Live : Prog Q A E α → Prop
  | ret _ => True
  | fail => False
  | ask _ k => ∀ a, Live (k a)
  | tell _ k => Live k
  | poll _ good k => (∃ a, good a = true) ∧ ∀ a, good a = true → Live (k a)

section Live

variable {p p' : Prog Q A E α} {e : Event Q A E} {es : List (Event Q A E)}

omit [DecidableEq Q] [DecidableEq E] in
theorem live_read {q : Q} {f : A → Prog Q A E β} :
    Live (read q >>= f) ↔ ∀ a, Live (f a) := Iff.rfl

omit [DecidableEq Q] [DecidableEq E] in
theorem Live.bind {f : α → Prog Q A E β} (h : Live p) (hf : ∀ a, Live (f a)) : Live (p >>= f) := by
  induction p with
  | ret a => exact hf a
  | fail => exact h.elim
  | ask q k ih => exact fun a => ih a (h a)
  | tell e k ih => exact ih h
  | poll q good k ih => exact ⟨h.1, fun a ha => ih a (h.2 a ha)⟩

theorem Live.step (h : Live p) (hs : p.step e = some (p', ())) : Live p' := by
  cases p with
  | ret a => cases hs
  | fail => cases hs
  | ask q k =>
    cases e with
    | told e => cases hs
    | asked q' a =>
      rw [Prog.step] at hs
      split_ifs at hs
      obtain ⟨rfl, -⟩ := Prod.mk.inj (Option.some_inj.mp hs)
      exact h a
  | tell e' k =>
    cases e with
    | asked q' a => cases hs
    | told e =>
      rw [Prog.step] at hs
      split_ifs at hs
      obtain ⟨rfl, -⟩ := Prod.mk.inj (Option.some_inj.mp hs)
      exact h
  | poll q good k =>
    cases e with
    | told e => cases hs
    | asked q' a =>
      rw [Prog.step] at hs
      split_ifs at hs with hq hgood
      · obtain ⟨rfl, -⟩ := Prod.mk.inj (Option.some_inj.mp hs)
        exact h.2 a hgood
      · obtain ⟨rfl, -⟩ := Prod.mk.inj (Option.some_inj.mp hs)
        exact h

theorem Live.leads (h : Live p) (hrun : Leads p es p') : Live p' := by
  obtain ⟨os, hrun⟩ := hrun
  exact run_invariant (I := Live) (fun _ _ _ _ hp hs => hp.step hs) h hrun

/-- A live program has an end. -/
theorem Live.ends [Nonempty A] (h : Live p) : ∃ es a, Leads p es (ret a) := by
  obtain ⟨a₀⟩ := ‹Nonempty A›
  induction p with
  | ret a => exact ⟨[], a, .refl _⟩
  | fail => exact h.elim
  | ask q k ih =>
    obtain ⟨es, a, hrun⟩ := ih a₀ (h a₀)
    exact ⟨.asked q a₀ :: es, a, hrun.cons (if_pos rfl)⟩
  | tell e k ih =>
    obtain ⟨es, a, hrun⟩ := ih h
    exact ⟨.told e :: es, a, hrun.cons (if_pos rfl)⟩
  | poll q good k ih =>
    obtain ⟨⟨b, hb⟩, hk⟩ := h
    obtain ⟨es, a, hrun⟩ := ih b (hk b hb)
    refine ⟨.asked q b :: es, a, hrun.cons ?_⟩
    rw [Prog.step, if_pos rfl, if_pos hb]

/-- **Progress**: wherever a run of a live program has got to, it can go on to the end. -/
theorem Live.goes_on [Nonempty A] (h : Live p) (hrun : Leads p es p') :
    ∃ es' a, Leads p (es ++ es') (ret a) := by
  obtain ⟨es', a, hend⟩ := (h.leads hrun).ends
  exact ⟨es', a, hrun.append hend⟩

end Live

end Prog

end Device
