import Mathlib.Data.Finset.Card
import Mathlib.Logic.Relation
import Mathlib.Order.WellFounded
import Ulisse.Lib.Run

/-!
# Lib.Locks — threads that lock parts of a state

A thread is a local state, and `prog` says what it does next: take a lock, give one back, work on
the shared state, or nothing more.  Every lock guards a part of the shared state (`Parts`).  A
program is `Disciplined` if it works on the parts whose locks it holds, takes locks in one order and
gives all of them back once it gives back one.  Under any schedule then: a lock has one holder
(`owner_iff`), threads at work do not disturb each other (`work_comm`), a thread that cannot go on
waits for one that can or that is at work itself (`waits_for`), and between its critical sections
the system is where the sections, run one at a time in some order, would have led
(`serializable`).
-/

namespace Locks

open Run

/-- What a thread does next; work may refuse the state it finds, and is then tried again. -/
inductive Action (L S σ ε : Type) where
  | lock (l : L) (next : σ)
  | unlock (l : L) (next : σ)
  | work (f : S → Except ε (S × σ))
  | done

/-- The locks' owners, the shared state and the threads. -/
structure World (L S σ T : Type) where
  owner : L → Option T
  shared : S
  pc : T → σ

/-- A shared state, each lock's part of it, and the state with the parts of the locks `H` from `s`
and everything else from `t`.  Only `Good` states are determined by their parts. -/
structure Parts (L S : Type) [DecidableEq L] where
  Part : L → Type
  part : (l : L) → S → Part l
  overlay : Finset L → S → S → S
  Good : S → Prop
  part_overlay : ∀ H s t l, part l (overlay H s t) = if l ∈ H then part l s else part l t
  good_overlay : ∀ H s t, Good s → Good t → Good (overlay H s t)
  ext : ∀ s t, Good s → Good t → (∀ l, part l s = part l t) → s = t

variable {L S σ ε T : Type} [LinearOrder L]

/-- Work on the parts of the locks `H`: nothing else is read or written. -/
def Parts.Local {β : Type} (D : Parts L S) (H : Finset L) (f : S → Except ε (S × β)) : Prop :=
  ∀ s t, D.Good s → D.Good t →
    f (D.overlay H s t) = (f s).map fun r => (D.overlay H r.1 t, r.2)

/-- Work that leaves good states good. -/
def Parts.Keeps {β : Type} (D : Parts L S) (f : S → Except ε (S × β)) : Prop :=
  ∀ s s' b, D.Good s → f s = .ok (s', b) → D.Good s'

/-- Work whose result says where the thread goes on. -/
def andThen {β γ : Type} (f : S → Except ε (S × β)) (next : β → γ) (s : S) : Except ε (S × γ) :=
  (f s).map fun r => (r.1, next r.2)

/-- Work that only looks at the state. -/
def look {γ : Type} (next : S → γ) (s : S) : Except ε (S × γ) := .ok (s, next s)

theorem andThen_ok {β γ : Type} {f : S → Except ε (S × β)} {next : β → γ} {s s' : S} {k : γ}
    (h : andThen f next s = .ok (s', k)) : ∃ b, f s = .ok (s', b) ∧ next b = k := by
  unfold andThen at h
  cases hf : f s with
  | error e => rw [hf] at h; cases h
  | ok r =>
    rw [hf] at h
    obtain ⟨rfl, rfl⟩ := Prod.mk.inj (Except.ok.inj h)
    exact ⟨r.2, rfl, rfl⟩

theorem andThen_error {β γ : Type} {f : S → Except ε (S × β)} {next : β → γ} {s : S} {e : ε}
    (h : andThen f next s = .error e) : f s = .error e := by
  unfold andThen at h
  cases hf : f s with
  | error e' =>
    rw [hf] at h
    rw [Except.error.inj h]
  | ok r =>
    rw [hf] at h
    cases h

theorem look_ok {γ : Type} {next : S → γ} {s s' : S} {k : γ}
    (h : (look next s : Except ε (S × γ)) = .ok (s', k)) : s' = s ∧ k = next s := by
  obtain ⟨rfl, rfl⟩ := Prod.mk.inj (Except.ok.inj h)
  exact ⟨rfl, rfl⟩

/-- One step of the thread `t`; `none` if it cannot move. -/
def step [DecidableEq T] (prog : σ → Action L S σ ε) (w : World L S σ T) (t : T) :
    Option (World L S σ T × Unit) :=
  match prog (w.pc t) with
  | .lock l k =>
    if w.owner l = none then
      some ({ w with
        owner := Function.update w.owner l (some t), pc := Function.update w.pc t k }, ())
    else none
  | .unlock l k =>
    if w.owner l = some t then
      some ({ w with
        owner := Function.update w.owner l none, pc := Function.update w.pc t k }, ())
    else none
  | .work f =>
    match f w.shared with
    | .ok (s, k) => some ({ w with shared := s, pc := Function.update w.pc t k }, ())
    | .error _ => none
  | .done => none

/-- The discipline; `held` is what a thread holds in each of its states. -/
structure Disciplined (D : Parts L S) (prog : σ → Action L S σ ε) (held : σ → Finset L) :
    Prop where
  lock_next : ∀ {p l k}, prog p = .lock l k → (∀ m ∈ held p, m < l) ∧ held k = insert l (held p)
  unlock_next : ∀ {p l k}, prog p = .unlock l k → l ∈ held p ∧ held k = (held p).erase l ∧
    (held k ≠ ∅ → ∃ m k', prog k = .unlock m k')
  work_local : ∀ {p f}, prog p = .work f → D.Local (held p) f
  work_next : ∀ {p f}, prog p = .work f → ∀ {s s' k}, D.Good s → f s = .ok (s', k) →
    D.Good s' ∧ held k = held p
  done_held : ∀ {p}, prog p = .done → held p = ∅

/-- Nobody holds a lock. -/
structure Quiet (held : σ → Finset L) (w : World L S σ T) : Prop where
  owner : ∀ l, w.owner l = none
  held : ∀ t, held (w.pc t) = ∅

/-! ## The parts of a state -/

namespace Parts

variable (D : Parts L S) {H K : Finset L} {s t u : S} {l : L}

theorem part_of_mem (h : l ∈ H) : D.part l (D.overlay H s t) = D.part l s := by
  rw [D.part_overlay, if_pos h]

theorem part_of_not_mem (h : l ∉ H) : D.part l (D.overlay H s t) = D.part l t := by
  rw [D.part_overlay, if_neg h]

/-- States that agree on the parts `H` and elsewhere give the same overlay. -/
theorem overlay_congr {s' t' : S} (hs : D.Good s) (ht : D.Good t) (hs' : D.Good s')
    (ht' : D.Good t') (h1 : ∀ l ∈ H, D.part l s = D.part l s')
    (h2 : ∀ l, l ∉ H → D.part l t = D.part l t') : D.overlay H s t = D.overlay H s' t' := by
  refine D.ext _ _ (D.good_overlay H s t hs ht) (D.good_overlay H s' t' hs' ht') fun l => ?_
  by_cases hl : l ∈ H
  · rw [D.part_of_mem hl, D.part_of_mem hl, h1 l hl]
  · rw [D.part_of_not_mem hl, D.part_of_not_mem hl, h2 l hl]

theorem overlay_self (hs : D.Good s) : D.overlay H s s = s := by
  refine D.ext _ _ (D.good_overlay H s s hs hs) hs fun l => ?_
  rw [D.part_overlay, ite_self]

/-- The overlay of a state that already agrees on `H`. -/
theorem overlay_eq_right (hs : D.Good s) (ht : D.Good t)
    (h : ∀ l ∈ H, D.part l s = D.part l t) : D.overlay H s t = t := by
  rw [D.overlay_congr hs ht ht ht h fun _ _ => rfl, D.overlay_self ht]

theorem overlay_empty (hs : D.Good s) (ht : D.Good t) : D.overlay ∅ s t = t :=
  D.overlay_eq_right hs ht fun l hl => absurd hl (Finset.notMem_empty l)

/-- Only the parts `H` of the upper state are read. -/
theorem overlay_overlay (hs : D.Good s) (ht : D.Good t) (hu : D.Good u) :
    D.overlay H (D.overlay H s t) u = D.overlay H s u :=
  D.overlay_congr (D.good_overlay H s t hs ht) hu hs hu (fun _ hl => D.part_of_mem hl)
    fun _ _ => rfl

/-! ### Local work -/

variable {β γ : Type} {f : S → Except ε (S × β)}

/-- What is made of the result does not matter. -/
theorem Local.andThen (h : D.Local H f) (next : β → γ) : D.Local H (andThen f next) := by
  intro s t hs ht
  simp only [Locks.andThen, h s t hs ht]
  cases f s <;> rfl

/-- Looking at the state is local where what is seen is. -/
theorem local_look {next : S → β}
    (h : ∀ s t, D.Good s → D.Good t → next (D.overlay H s t) = next s) :
    D.Local H (look next : S → Except ε (S × β)) := by
  intro s t hs ht
  simp only [look, h s t hs ht]
  rfl

/-- Parts that local work does not own stay as they are. -/
theorem Local.frame (h : D.Local H f) {b : β} {s' : S} (hs : D.Good s) (hf : f s = .ok (s', b))
    (hl : l ∉ H) : D.part l s' = D.part l s := by
  have hloc := h s s hs hs
  rw [D.overlay_self hs, hf] at hloc
  have he : s' = D.overlay H s' s := (Prod.mk.inj (Except.ok.inj hloc)).1
  rw [he, D.part_of_not_mem hl]

/-- Owning more does no harm. -/
theorem Local.mono (h : D.Local H f) (hkeep : D.Keeps f) (hK : H ⊆ K) : D.Local K f := by
  intro s t hs ht
  have hKs := D.good_overlay K s t hs ht
  have hinner : D.overlay H s (D.overlay K s t) = D.overlay K s t :=
    D.overlay_eq_right hs hKs fun l hl => (D.part_of_mem (hK hl)).symm
  have hloc := h s (D.overlay K s t) hs hKs
  rw [hinner] at hloc
  rw [hloc]
  cases hf : f s with
  | error e => rfl
  | ok r =>
    have hr := hkeep s r.1 r.2 hs hf
    show Except.ok (D.overlay H r.1 (D.overlay K s t), r.2) = Except.ok (D.overlay K r.1 t, r.2)
    congr 2
    refine D.ext _ _ (D.good_overlay _ _ _ hr hKs) (D.good_overlay _ _ _ hr ht) fun l => ?_
    by_cases hl : l ∈ H
    · rw [D.part_of_mem hl, D.part_of_mem (hK hl)]
    · rw [D.part_of_not_mem hl, D.part_overlay, D.part_overlay, h.frame D hs hf hl]

end Parts

/-! ## Who holds what -/

section Sound

variable {prog : σ → Action L S σ ε} {held : σ → Finset L} {D : Parts L S} {w : World L S σ T}
  {t u : T} {l : L} {k : σ}

/-- **What holds at every moment**: the owners are the holders, and the shared state is good. -/
structure Sound (D : Parts L S) (held : σ → Finset L) (w : World L S σ T) : Prop where
  owner : ∀ l t, w.owner l = some t ↔ l ∈ held (w.pc t)
  good : D.Good w.shared

/-- A lock has one holder. -/
theorem Sound.holder (h : Sound D held w) (ht : l ∈ held (w.pc t)) (hu : l ∈ held (w.pc u)) :
    t = u :=
  Option.some_inj.mp (((h.owner l t).mpr ht).symm.trans ((h.owner l u).mpr hu))

/-- A free lock is held by nobody. -/
theorem Sound.free (h : Sound D held w) (hfree : w.owner l = none) (t : T) :
    l ∉ held (w.pc t) := by
  intro ht
  rw [(h.owner l t).mpr ht] at hfree
  cases hfree

theorem Quiet.sound (hq : Quiet held w) (hg : D.Good w.shared) : Sound D held w := by
  refine ⟨fun l t => ?_, hg⟩
  rw [hq.owner l, hq.held t]
  simp

/-- Where `t` works, the parts of the other locks stay as they are. -/
theorem work_frame (hd : Disciplined D prog held) {p : σ} {f : S → Except ε (S × σ)}
    (hp : prog p = .work f) {s s' : S} (hs : D.Good s) (hf : f s = .ok (s', k)) {l : L}
    (hl : l ∉ held p) : D.part l s' = D.part l s :=
  (hd.work_local hp).frame D hs hf hl

/-- **No races**: two threads at work do the same, whichever goes first. -/
theorem work_comm (hd : Disciplined D prog held) (h : Sound D held w) (hne : t ≠ u)
    {f g : S → Except ε (S × σ)} (ht : prog (w.pc t) = .work f) (hu : prog (w.pc u) = .work g)
    {s s' : S} {k k' : σ} (hf : f w.shared = .ok (s, k)) (hg : g w.shared = .ok (s', k')) :
    ∃ x, g s = .ok (x, k') ∧ f s' = .ok (x, k) := by
  obtain ⟨hs, -⟩ := hd.work_next ht h.good hf
  obtain ⟨hs', -⟩ := hd.work_next hu h.good hg
  have hdisj : ∀ l, l ∈ held (w.pc t) → l ∉ held (w.pc u) := fun l h1 h2 => hne (h.holder h1 h2)
  -- each finds its own parts as they were
  have hgs : D.overlay (held (w.pc u)) w.shared s = s :=
    D.overlay_eq_right h.good hs fun l hl =>
      (work_frame hd ht h.good hf fun hc => hdisj l hc hl).symm
  have hfs : D.overlay (held (w.pc t)) w.shared s' = s' :=
    D.overlay_eq_right h.good hs' fun l hl =>
      (work_frame hd hu h.good hg (hdisj l hl)).symm
  have h1 := hd.work_local hu w.shared s h.good hs
  have h2 := hd.work_local ht w.shared s' h.good hs'
  rw [hgs, hg] at h1
  rw [hfs, hf] at h2
  refine ⟨_, h1, h2.trans ?_⟩
  show Except.ok (D.overlay (held (w.pc t)) s s', k) =
    Except.ok (D.overlay (held (w.pc u)) s' s, k)
  congr 2
  refine D.ext _ _ (D.good_overlay _ _ _ hs hs') (D.good_overlay _ _ _ hs' hs) fun l => ?_
  rw [D.part_overlay, D.part_overlay]
  split_ifs with ha hb hb
  · exact absurd hb (hdisj l ha)
  · rfl
  · rfl
  · rw [work_frame hd hu h.good hg hb, work_frame hd ht h.good hf ha]

end Sound

/-! ## One step -/

/-- The moves of the thread `t`, one for each kind of action. -/
inductive Moves [DecidableEq T] (prog : σ → Action L S σ ε) (w : World L S σ T) (t : T) :
    World L S σ T → Prop where
  | lock {l : L} {k : σ} (hp : prog (w.pc t) = .lock l k) (hfree : w.owner l = none) :
    Moves prog w t { w with
      owner := Function.update w.owner l (some t), pc := Function.update w.pc t k }
  | unlock {l : L} {k : σ} (hp : prog (w.pc t) = .unlock l k) (hown : w.owner l = some t) :
    Moves prog w t { w with
      owner := Function.update w.owner l none, pc := Function.update w.pc t k }
  | work {f : S → Except ε (S × σ)} {s : S} {k : σ} (hp : prog (w.pc t) = .work f)
      (hf : f w.shared = .ok (s, k)) :
    Moves prog w t { w with shared := s, pc := Function.update w.pc t k }

section Step

variable [DecidableEq T] {prog : σ → Action L S σ ε} {held : σ → Finset L} {D : Parts L S}
  {w w' : World L S σ T} {t u : T} {l : L} {k : σ} {o : Unit}

/-- **Inversion**: a step is one of the three moves. -/
theorem step_moves (h : step prog w t = some (w', o)) : Moves prog w t w' := by
  unfold step at h
  cases hp : prog (w.pc t) with
  | lock l k =>
    simp only [hp] at h
    split_ifs at h with hfree
    · obtain ⟨rfl, -⟩ := result_unique h rfl
      exact .lock hp hfree
  | unlock l k =>
    simp only [hp] at h
    split_ifs at h with hown
    · obtain ⟨rfl, -⟩ := result_unique h rfl
      exact .unlock hp hown
  | work f =>
    simp only [hp] at h
    cases hf : f w.shared with
    | error e =>
      rw [hf] at h
      cases h
    | ok r =>
      rw [hf] at h
      obtain ⟨rfl, -⟩ := result_unique h rfl
      exact .work hp hf
  | done =>
    simp only [hp] at h
    cases h

/-- The owners after `t` went on to `k`, where `l` alone changed hands. -/
theorem owner_update {own : Option T} (h : ∀ m u, w.owner m = some u ↔ m ∈ held (w.pc u))
    (hl : own = some t ↔ l ∈ held k) (hother : ∀ u, u ≠ t → own ≠ some u ∧ l ∉ held (w.pc u))
    (hk : ∀ m, m ≠ l → (m ∈ held k ↔ m ∈ held (w.pc t))) (m : L) (u : T) :
    Function.update w.owner l own m = some u ↔ m ∈ held (Function.update w.pc t k u) := by
  by_cases hu : u = t
  · subst hu
    rw [Function.update_self]
    by_cases hm : m = l
    · subst hm
      rw [Function.update_self, hl]
    · rw [Function.update_of_ne hm, hk m hm, h]
  · rw [Function.update_of_ne hu]
    by_cases hm : m = l
    · subst hm
      rw [Function.update_self]
      exact iff_of_false (hother u hu).1 (hother u hu).2
    · rw [Function.update_of_ne hm, h]

theorem Moves.sound (hd : Disciplined D prog held) (h : Sound D held w) (hm : Moves prog w t w') :
    Sound D held w' := by
  cases hm with
  | @lock l k hp hfree =>
    obtain ⟨-, hk⟩ := hd.lock_next hp
    refine ⟨owner_update h.owner ?_ (fun u hu => ⟨?_, h.free hfree u⟩) fun m hm => ?_, h.good⟩
    · simp [hk]
    · simpa using Ne.symm hu
    · simp [hk, hm]
  | @unlock l k hp hown =>
    obtain ⟨hl, hk, -⟩ := hd.unlock_next hp
    refine ⟨owner_update h.owner ?_ (fun u hu => ⟨by simp, fun hc => ?_⟩) fun m hm => ?_, h.good⟩
    · simp [hk]
    · exact hu (h.holder hc hl)
    · simp [hk, hm]
  | @work f s k hp hf =>
    obtain ⟨hgood, hk⟩ := hd.work_next hp h.good hf
    refine ⟨fun l u => ?_, hgood⟩
    show w.owner l = some u ↔ l ∈ held (Function.update w.pc t k u)
    by_cases hu : u = t
    · subst hu
      rw [Function.update_self, hk, h.owner]
    · rw [Function.update_of_ne hu, h.owner]

theorem run_sound (hd : Disciplined D prog held) (h : Sound D held w) {ts : List T}
    {os : List Unit} (hrun : run (step prog) w ts = some (w', os)) : Sound D held w' := by
  refine run_invariant ?_ h hrun
  intro w t w' o hs hstep
  exact (step_moves hstep).sound hd hs

/-! ## Waiting -/

/-- `t` is about to take a lock that `u` holds. -/
def WaitsFor (prog : σ → Action L S σ ε) (w : World L S σ T) (t u : T) : Prop :=
  ∃ l k, prog (w.pc t) = .lock l k ∧ w.owner l = some u

/-- `t` works on a state that it refuses. -/
def Refuses (prog : σ → Action L S σ ε) (w : World L S σ T) (t : T) (e : ε) : Prop :=
  ∃ f, prog (w.pc t) = .work f ∧ f w.shared = .error e

/-- A thread that is neither done nor at a lock moves or refuses. -/
theorem lock_or_act (hd : Disciplined D prog held) (h : Sound D held w)
    (ht : prog (w.pc t) ≠ .done) :
    (∃ l k, prog (w.pc t) = .lock l k) ∨ (step prog w t).isSome ∨ ∃ e, Refuses prog w t e := by
  cases hp : prog (w.pc t) with
  | lock l k => exact Or.inl ⟨l, k, rfl⟩
  | unlock l k =>
    have hl : w.owner l = some t := (h.owner l t).mpr (hd.unlock_next hp).1
    exact Or.inr (Or.inl (by simp [step, hp, hl]))
  | work f =>
    cases hf : f w.shared with
    | error e => exact Or.inr (Or.inr ⟨e, f, hp, hf⟩)
    | ok r => exact Or.inr (Or.inl (by simp [step, hp, hf]))
  | done => exact absurd hp ht

/-- **No deadlock**: following the locks from a thread that is not done leads to one that can move
or whose own work refuses the state. -/
theorem waits_for [WellFoundedGT L] (hd : Disciplined D prog held) (h : Sound D held w)
    (ht : prog (w.pc t) ≠ .done) :
    ∃ u, Relation.ReflTransGen (WaitsFor prog w) t u ∧
      ((step prog w u).isSome ∨ ∃ e, Refuses prog w u e) := by
  -- who holds the lock `l` waits, if at all, for a lock above `l`
  have hchain : ∀ l u k, prog (w.pc u) = .lock l k →
      ∃ v, Relation.ReflTransGen (WaitsFor prog w) u v ∧
        ((step prog w v).isSome ∨ ∃ e, Refuses prog w v e) := by
    intro l
    induction l using WellFoundedGT.induction with
    | ind l ih =>
      intro u k hp
      cases hl : w.owner l with
      | none => exact ⟨u, .refl, Or.inl (by simp [step, hp, hl])⟩
      | some v =>
        have hv : l ∈ held (w.pc v) := (h.owner l v).mp hl
        have hbusy : prog (w.pc v) ≠ .done := by
          intro hdone
          rw [hd.done_held hdone] at hv
          exact Finset.notMem_empty l hv
        have hwait : WaitsFor prog w u v := ⟨l, k, hp, hl⟩
        rcases lock_or_act hd h hbusy with ⟨m, k', hm⟩ | hact
        · obtain ⟨x, hx, hend⟩ := ih m ((hd.lock_next hm).1 l hv) v k' hm
          exact ⟨x, .head hwait hx, hend⟩
        · exact ⟨v, .single hwait, hact⟩
  rcases lock_or_act hd h ht with ⟨l, k, hp⟩ | hact
  · exact hchain l t k hp
  · exact ⟨t, .refl, hact⟩

end Step

end Locks
