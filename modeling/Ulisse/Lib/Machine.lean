import Ulisse.Lib.Device

/-!
# Lib.Machine — machines that implement a program

A machine goes from state to state and says what each step does: nothing that can be seen, a question
to the device, something told to it, the end, or nothing defined.  `Executes` is what can be seen of
its executions.  The rule `Implements.executes`: a machine whose states are related to what is left
of a program, each seen step to a step of the program and the unseen ones to nothing, with a rank
that the unseen steps decrease, has exactly the runs of the program, ends where the program does,
and never does anything undefined.
-/

namespace Device

open Prog

/-- What a step of the machine does, and the state behind it. -/
inductive Effect (σ Q A E α : Type) where
  | silent (s : σ)
  | load (q : Q) (k : A → σ)
  | store (e : E) (s : σ)
  | exit (a : α)
  | stuck

variable {σ Q A E α : Type} (next : σ → Effect σ Q A E α)

/-- The machine gets from the first state to the second, and `es` is what can be seen of it. -/
inductive Executes : σ → List (Event Q A E) → σ → Prop where
  | refl (s : σ) : Executes s [] s
  | silent {s s' t : σ} {es : List (Event Q A E)} (hs : next s = .silent s')
      (h : Executes s' es t) : Executes s es t
  | load {s t : σ} {q : Q} {k : A → σ} {es : List (Event Q A E)} (a : A) (hs : next s = .load q k)
      (h : Executes (k a) es t) : Executes s (.asked q a :: es) t
  | store {s s' t : σ} {e : E} {es : List (Event Q A E)} (hs : next s = .store e s')
      (h : Executes s' es t) : Executes s (.told e :: es) t

variable {next} {s t u : σ} {es es' : List (Event Q A E)}

theorem Executes.append (h : Executes next s es t) (h' : Executes next t es' u) :
    Executes next s (es ++ es') u := by
  induction h with
  | refl s => exact h'
  | silent hs _ ih => exact .silent hs (ih h')
  | load a hs _ ih => exact .load a hs (ih h')
  | store hs _ ih => exact .store hs (ih h')

variable [DecidableEq Q] [DecidableEq E]

/-- What a step from a related state has to do. -/
def Matches (R : σ → Prog Q A E α → Prop) (rank : σ → ℕ) (s : σ) (p : Prog Q A E α) :
    Effect σ Q A E α → Prop
  | .silent s' => R s' p ∧ rank s' < rank s
  | .load q k => (∀ a, ∃ p', step p (.asked q a) = some (p', ()) ∧ R (k a) p') ∧
      ∀ e p', step p e = some (p', ()) → ∃ a, e = .asked q a
  | .store e s' => (∃ p', step p (.told e) = some (p', ()) ∧ R s' p') ∧
      ∀ e' p', step p e' = some (p', ()) → e' = .told e
  | .exit a => p = ret a
  | .stuck => False

/-- Each step does what a step of the program does. -/
def Implements (next : σ → Effect σ Q A E α) (R : σ → Prog Q A E α → Prop) (rank : σ → ℕ) : Prop :=
  ∀ s p, R s p → Matches R rank s p (next s)

section Implements

variable {R : σ → Prog Q A E α → Prop} {rank : σ → ℕ} {p p' : Prog Q A E α} {e : Event Q A E}

/-- What the machine does the program does. -/
theorem Implements.forward (h : Implements next R rank) (hR : R s p)
    (hexec : Executes next s es t) : ∃ p', Leads p es p' ∧ R t p' := by
  induction hexec generalizing p with
  | refl s => exact ⟨p, .refl p, hR⟩
  | silent hs _ ih =>
    have hm := h _ _ hR
    rw [hs] at hm
    exact ih hm.1
  | load a hs _ ih =>
    have hm := h _ _ hR
    rw [hs] at hm
    obtain ⟨p₁, hstep, hR₁⟩ := hm.1 a
    obtain ⟨p', hlead, hR'⟩ := ih hR₁
    exact ⟨p', hlead.cons hstep, hR'⟩
  | store hs _ ih =>
    have hm := h _ _ hR
    rw [hs] at hm
    obtain ⟨p₁, hstep, hR₁⟩ := hm.1
    obtain ⟨p', hlead, hR'⟩ := ih hR₁
    exact ⟨p', hlead.cons hstep, hR'⟩

/-- A step of the program is made behind some unseen steps. -/
theorem Implements.backward_step (h : Implements next R rank) (hR : R s p)
    (hstep : step p e = some (p', ())) : ∃ t, Executes next s [e] t ∧ R t p' := by
  induction hn : rank s using Nat.strongRecOn generalizing s with
  | ind n ih =>
    have hm := h s p hR
    cases hnext : next s with
    | silent s' =>
      rw [hnext] at hm
      obtain ⟨t, hexec, hRt⟩ := ih _ (hn ▸ hm.2) hm.1 rfl
      exact ⟨t, .silent hnext hexec, hRt⟩
    | load q k =>
      rw [hnext] at hm
      obtain ⟨a, rfl⟩ := hm.2 e p' hstep
      obtain ⟨p₁, hstep₁, hR₁⟩ := hm.1 a
      obtain ⟨rfl, -⟩ := Run.result_unique hstep hstep₁
      exact ⟨k a, .load a hnext (.refl _), hR₁⟩
    | store e' s' =>
      rw [hnext] at hm
      obtain rfl := hm.2 e p' hstep
      obtain ⟨p₁, hstep₁, hR₁⟩ := hm.1
      obtain ⟨rfl, -⟩ := Run.result_unique hstep hstep₁
      exact ⟨s', .store hnext (.refl _), hR₁⟩
    | exit a =>
      rw [hnext] at hm
      obtain rfl := hm
      cases hstep
    | stuck =>
      rw [hnext] at hm
      exact hm.elim

/-- What the program does the machine does. -/
theorem Implements.backward (h : Implements next R rank) (hR : R s p) (hlead : Leads p es p') :
    ∃ t, Executes next s es t ∧ R t p' := by
  induction es generalizing s p with
  | nil =>
    obtain ⟨os, hrun⟩ := hlead
    exact ⟨s, .refl s, (Run.run_nil_some hrun).1 ▸ hR⟩
  | cons e es ih =>
    obtain ⟨p₁, hstep, hrest⟩ := leads_cons.mp hlead
    obtain ⟨t₁, hexec, hR₁⟩ := h.backward_step hR hstep
    obtain ⟨t, hexec', hRt⟩ := ih hR₁ hrest
    exact ⟨t, hexec.append hexec', hRt⟩

/-- Where the program has ended the machine ends, behind some unseen steps. -/
theorem Implements.ends [Nonempty A] {a : α} (h : Implements next R rank) (hR : R s (ret a)) :
    ∃ t, Executes next s [] t ∧ next t = .exit a := by
  obtain ⟨a₀⟩ := ‹Nonempty A›
  induction hn : rank s using Nat.strongRecOn generalizing s with
  | ind n ih =>
    have hm := h s (ret a) hR
    cases hnext : next s with
    | silent s' =>
      rw [hnext] at hm
      obtain ⟨t, hexec, hexit⟩ := ih _ (hn ▸ hm.2) hm.1 rfl
      exact ⟨t, .silent hnext hexec, hexit⟩
    | load q k =>
      rw [hnext] at hm
      obtain ⟨p', hstep, -⟩ := hm.1 a₀
      cases hstep
    | store e' s' =>
      rw [hnext] at hm
      obtain ⟨⟨p', hstep, -⟩, -⟩ := hm
      cases hstep
    | exit b =>
      rw [hnext] at hm
      obtain rfl := ret.inj hm
      exact ⟨s, .refl s, hnext⟩
    | stuck =>
      rw [hnext] at hm
      exact hm.elim

/-- **An implementation does nothing undefined**. -/
theorem Implements.never_stuck (h : Implements next R rank) (hR : R s p)
    (hexec : Executes next s es t) : next t ≠ .stuck := by
  intro hstuck
  obtain ⟨p', -, hR'⟩ := h.forward hR hexec
  have hm := h t p' hR'
  rw [hstuck] at hm
  exact hm

/-- **An implementation has the runs of its program**. -/
theorem Implements.executes (h : Implements next R rank) (hR : R s p) :
    (∃ t, Executes next s es t) ↔ ∃ p', Leads p es p' := by
  constructor
  · rintro ⟨t, hexec⟩
    obtain ⟨p', hlead, -⟩ := h.forward hR hexec
    exact ⟨p', hlead⟩
  · rintro ⟨p', hlead⟩
    obtain ⟨t, hexec, -⟩ := h.backward hR hlead
    exact ⟨t, hexec⟩

/-- **An implementation ends where its program does**, with its result. -/
theorem Implements.exits [Nonempty A] {a : α} (h : Implements next R rank) (hR : R s p) :
    (∃ t, Executes next s es t ∧ next t = .exit a) ↔ Leads p es (ret a) := by
  constructor
  · rintro ⟨t, hexec, hexit⟩
    obtain ⟨p', hlead, hR'⟩ := h.forward hR hexec
    have hm := h t p' hR'
    rw [hexit] at hm
    obtain rfl := hm
    exact hlead
  · intro hlead
    obtain ⟨t, hexec, hR'⟩ := h.backward hR hlead
    obtain ⟨t', hexec', hexit⟩ := h.ends hR'
    rw [← List.append_nil es]
    exact ⟨t', hexec.append hexec', hexit⟩

end Implements

end Device
