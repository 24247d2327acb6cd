import Mathlib.Data.List.Basic
import Mathlib.Data.List.Forall2
import Mathlib.Data.List.Induction

/-!
# Lib.Run — runs of a partial step function

`step s i = some (s', o)`: in state `s` the input `i` leads to `s'` and is answered by `o`;
`none` is a step without a defined result.  `run step s is` feeds a list of inputs.  The rules:
a run over `xs ++ ys` is a run over `xs` and then one over `ys` (`run_append`, `run_split`), an
invariant of the steps is one of the runs (`run_invariant`), also when it speaks of the inputs and
answers so far (`run_history`) or only good steps preserve it (`run_along`), a step that is always
defined gives runs that are (`run_total`), and two machines whose steps agree along a relation
answer alike (`run_agree`, and `run_bisim` for steps that are defined).
-/

namespace Run

variable {σ τ ι ο : Type} {step : σ → ι → Option (σ × ο)}

/-- A step or a run has one result. -/
theorem result_unique {s t : σ} {o p : ο} {x : Option (σ × ο)} (h : x = some (s, o))
    (h' : x = some (t, p)) : s = t ∧ o = p :=
  Prod.mk.inj (Option.some_inj.mp (h.symm.trans h'))

/-- The run over the inputs `is` from `s`: the last state and the answers, one for each input. -/
def run (step : σ → ι → Option (σ × ο)) : σ → List ι → Option (σ × List ο)
  | s, [] => some (s, [])
  | s, i :: is => (step s i).bind fun r => (run step r.1 is).map fun q => (q.1, r.2 :: q.2)

@[simp] theorem run_nil (s : σ) : run step s [] = some (s, []) := rfl

theorem run_nil_some {s t : σ} {os : List ο} (h : run step s [] = some (t, os)) :
    s = t ∧ [] = os :=
  result_unique (run_nil s) h

theorem run_cons {s : σ} {i : ι} {is : List ι} :
    run step s (i :: is) =
      (step s i).bind fun r => (run step r.1 is).map fun q => (q.1, r.2 :: q.2) := rfl

theorem run_cons_of {s s' : σ} {i : ι} {o : ο} {is : List ι} (h : step s i = some (s', o)) :
    run step s (i :: is) = (run step s' is).map fun q => (q.1, o :: q.2) := by
  rw [run_cons, h]; rfl

theorem run_cons_some {s t : σ} {i : ι} {is : List ι} {os : List ο} :
    run step s (i :: is) = some (t, os) ↔
      ∃ s' o os', step s i = some (s', o) ∧ run step s' is = some (t, os') ∧ os = o :: os' := by
  rw [run_cons, Option.bind_eq_some_iff]
  constructor
  · rintro ⟨⟨s', o⟩, h1, h2⟩
    obtain ⟨⟨t', os'⟩, h3, h4⟩ := Option.map_eq_some_iff.mp h2
    simp only [Prod.mk.injEq] at h4
    obtain ⟨rfl, rfl⟩ := h4
    exact ⟨s', o, os', h1, h3, rfl⟩
  · rintro ⟨s', o, os', h1, h2, rfl⟩
    exact ⟨(s', o), h1, by rw [h2]; rfl⟩

theorem run_singleton {s s' : σ} {i : ι} {o : ο} (h : step s i = some (s', o)) :
    run step s [i] = some (s', [o]) := by
  rw [run_cons_of h]; rfl

theorem run_append (s : σ) (xs ys : List ι) :
    run step s (xs ++ ys) =
      (run step s xs).bind fun r => (run step r.1 ys).map fun q => (q.1, r.2 ++ q.2) := by
  induction xs generalizing s with
  | nil => simp [Option.map_id']
  | cons x xs ih =>
    rw [List.cons_append, run_cons, run_cons]
    cases step s x with
    | none => rfl
    | some r =>
      rw [Option.bind_some, Option.bind_some, ih]
      cases run step r.1 xs with
      | none => rfl
      | some q =>
        simp only [Option.bind_some, Option.map_some]
        cases run step q.1 ys <;> rfl

theorem run_append_of {s t u : σ} {xs ys : List ι} {os ps : List ο}
    (h1 : run step s xs = some (t, os)) (h2 : run step t ys = some (u, ps)) :
    run step s (xs ++ ys) = some (u, os ++ ps) := by
  rw [run_append, h1, Option.bind_some, h2]; rfl

theorem run_split {s u : σ} {xs ys : List ι} {qs : List ο}
    (h : run step s (xs ++ ys) = some (u, qs)) :
    ∃ t os ps, run step s xs = some (t, os) ∧ run step t ys = some (u, ps) ∧ qs = os ++ ps := by
  rw [run_append, Option.bind_eq_some_iff] at h
  obtain ⟨⟨t, os⟩, h1, h2⟩ := h
  obtain ⟨⟨u', ps⟩, h3, h4⟩ := Option.map_eq_some_iff.mp h2
  simp only [Prod.mk.injEq] at h4
  obtain ⟨rfl, rfl⟩ := h4
  exact ⟨t, os, ps, h1, h3, rfl⟩

theorem run_concat {s u : σ} {xs : List ι} {i : ι} {qs : List ο}
    (h : run step s (xs ++ [i]) = some (u, qs)) :
    ∃ t os o, run step s xs = some (t, os) ∧ step t i = some (u, o) ∧ qs = os ++ [o] := by
  obtain ⟨t, os, ps, h1, h2, rfl⟩ := run_split h
  obtain ⟨v, o, ps', h3, h4, rfl⟩ := run_cons_some.mp h2
  obtain ⟨rfl, rfl⟩ := run_nil_some h4
  exact ⟨t, os, o, h1, h3, rfl⟩

/-- **Invariants**: what every step preserves holds at the end of every run. -/
theorem run_invariant {I : σ → Prop}
    (hstep : ∀ s i s' o, I s → step s i = some (s', o) → I s') {s t : σ} {is : List ι}
    {os : List ο} (hs : I s) (h : run step s is = some (t, os)) : I t := by
  induction is generalizing s os with
  | nil => exact (run_nil_some h).1 ▸ hs
  | cons i is ih =>
    obtain ⟨s', o, os', h1, h2, -⟩ := run_cons_some.mp h
    exact ih (hstep s i s' o hs h1) h2

/-- `P` holds before every step of the run over `is`, defined or not: of the inputs and answers so
far, the state reached and the input that comes next. -/
def Along (step : σ → ι → Option (σ × ο)) (P : List ι → List ο → σ → ι → Prop) (s : σ)
    (is : List ι) : Prop :=
  ∀ pre i post t os, is = pre ++ i :: post → run step s pre = some (t, os) → P pre os t i

section Along

variable {P : List ι → List ο → σ → ι → Prop} {s : σ}

theorem Along.left {is js : List ι} (h : Along step P s (is ++ js)) : Along step P s is := by
  rintro pre i post t os rfl hrun
  exact h pre i (post ++ js) t os (by simp) hrun

theorem Along.last {is : List ι} {i : ι} {t : σ} {os : List ο} (h : Along step P s (is ++ [i]))
    (hrun : run step s is = some (t, os)) : P is os t i :=
  h is i [] t os rfl hrun

theorem Along.nil {Q : σ → ι → Prop} : Along step (fun _ _ => Q) s [] := by
  rintro pre i post t os he
  cases pre <;> cases he

theorem Along.cons {Q : σ → ι → Prop} {i : ι} {is : List ι} (h : Q s i)
    (hrest : ∀ t o, step s i = some (t, o) → Along step (fun _ _ => Q) t is) :
    Along step (fun _ _ => Q) s (i :: is) := by
  rintro pre j post t os he hrun
  cases pre with
  | nil =>
    obtain ⟨rfl, rfl⟩ := List.cons.inj he
    obtain ⟨rfl, -⟩ := run_nil_some hrun
    exact h
  | cons k pre =>
    obtain ⟨rfl, rfl⟩ := List.cons.inj he
    obtain ⟨u, o, os', hs, hrun', -⟩ := run_cons_some.mp hrun
    exact hrest u o hs pre j post t os' rfl hrun'

/-- Good steps, and then good steps from where they lead. -/
theorem Along.append {Q : σ → ι → Prop} {is js : List ι} {t : σ} {os : List ο}
    (h : Along step (fun _ _ => Q) s is) (hrun : run step s is = some (t, os))
    (h' : Along step (fun _ _ => Q) t js) : Along step (fun _ _ => Q) s (is ++ js) := by
  induction is generalizing s os with
  | nil =>
    obtain ⟨rfl, -⟩ := run_nil_some hrun
    exact h'
  | cons i is ih =>
    obtain ⟨u, o, os', hs, hrun', -⟩ := run_cons_some.mp hrun
    refine Along.cons (h [] i is s [] rfl rfl) ?_
    intro v p hv
    obtain ⟨rfl, -⟩ := result_unique hs hv
    refine ih ?_ hrun'
    rintro pre j post w ps rfl hpre
    exact h (i :: pre) j post w (o :: ps) rfl (by rw [run_cons_of hs, hpre]; rfl)

/-- **Histories along good steps**: only the steps that `P` allows have to keep the invariant. -/
theorem run_along {J : List ι → List ο → σ → Prop} (h0 : J [] [] s)
    (hstep : ∀ is os t i u o, J is os t → P is os t i → step t i = some (u, o) →
      J (is ++ [i]) (os ++ [o]) u)
    {is : List ι} {t : σ} {os : List ο} (hP : Along step P s is)
    (h : run step s is = some (t, os)) : J is os t := by
  induction is using List.reverseRecOn generalizing t os with
  | nil =>
    obtain ⟨rfl, rfl⟩ := run_nil_some h
    exact h0
  | append_singleton is i ih =>
    obtain ⟨u, os', o, h1, h2, rfl⟩ := run_concat h
    exact hstep _ _ _ _ _ _ (ih hP.left h1) (hP.last h1) h2

/-- **Safety along good steps**: an invariant that the allowed steps keep, and that makes every step
safe, makes every step of a run of allowed steps safe. -/
theorem Along.safe {Q G : σ → ι → Prop} {I : σ → Prop} (h0 : I s)
    (hstep : ∀ t i u o, I t → G t i → step t i = some (u, o) → I u)
    (hQ : ∀ t i, I t → Q t i) {is : List ι} (hG : Along step (fun _ _ => G) s is) :
    Along step (fun _ _ => Q) s is := by
  rintro pre i post t os rfl hrun
  have hI : I t := run_along (J := fun _ _ => I) h0
    (fun _ _ t i u o hI hg he => hstep t i u o hI hg he) hG.left hrun
  exact hQ t i hI

/-- `g` before every step of the run, as a test. -/
def alongCheck (step : σ → ι → Option (σ × ο)) (g : σ → ι → Bool) : σ → List ι → Bool
  | _, [] => true
  | s, i :: is =>
    g s i && match step s i with
      | none => true
      | some r => alongCheck step g r.1 is

/-- The test passes only where `G` holds all along, if `g` does so at every step. -/
theorem Along.of_check {G : σ → ι → Prop} {g : σ → ι → Bool} (hg : ∀ t i, g t i = true → G t i)
    {is : List ι} (h : alongCheck step g s is = true) : Along step (fun _ _ => G) s is := by
  induction is generalizing s with
  | nil => exact Along.nil
  | cons j is ih =>
    simp only [alongCheck, Bool.and_eq_true] at h
    obtain ⟨h1, h2⟩ := h
    refine Along.cons (hg s j h1) ?_
    intro t o hs
    rw [hs] at h2
    exact ih h2

/-- **Agreement**: two machines whose steps answer alike along a relation, as far as `P` allows the
steps, answer alike on whole runs; where one has no result, neither has the other. -/
theorem run_agree {step' : τ → ι → Option (τ × ο)} {J : List ο → σ → τ → Prop} {t : τ}
    (h0 : J [] s t)
    (hstep : ∀ is os u v i, J os u v → P is os u i →
      (step u i = none ∧ step' v i = none) ∨
      ∃ u' v' o, step u i = some (u', o) ∧ step' v i = some (v', o) ∧ J (os ++ [o]) u' v')
    {is : List ι} (hP : Along step P s is) :
    (run step s is).map Prod.snd = (run step' t is).map Prod.snd := by
  have hruns : (run step s is = none ∧ run step' t is = none) ∨
      ∃ u v os, run step s is = some (u, os) ∧ run step' t is = some (v, os) ∧ J os u v := by
    induction is using List.reverseRecOn with
    | nil => exact Or.inr ⟨s, t, [], rfl, rfl, h0⟩
    | append_singleton is i ih =>
      rw [run_append, run_append]
      rcases ih hP.left with ⟨h1, h2⟩ | ⟨u, v, os, h1, h2, hJ⟩
      · rw [h1, h2]
        exact Or.inl ⟨rfl, rfl⟩
      · rw [h1, h2, Option.bind_some, Option.bind_some, run_cons, run_cons]
        rcases hstep is os u v i hJ (hP.last h1) with ⟨h3, h4⟩ | ⟨u', v', o, h3, h4, hJ'⟩
        · rw [h3, h4]
          exact Or.inl ⟨rfl, rfl⟩
        · rw [h3, h4]
          exact Or.inr ⟨u', v', os ++ [o], rfl, rfl, hJ'⟩
  rcases hruns with ⟨h1, h2⟩ | ⟨u, v, os, h1, h2, -⟩
  · rw [h1, h2]
    rfl
  · rw [h1, h2]
    rfl

end Along

/-- **Histories**: an invariant that also speaks of the inputs and answers so far. -/
theorem run_history {J : List ι → List ο → σ → Prop} {s : σ} (h0 : J [] [] s)
    (hstep : ∀ is os t i u o, J is os t → step t i = some (u, o) → J (is ++ [i]) (os ++ [o]) u)
    {is : List ι} {t : σ} {os : List ο} (h : run step s is = some (t, os)) : J is os t := by
  refine run_along (P := fun _ _ _ _ => True) h0 ?_ (fun _ _ _ _ _ _ _ => trivial) h
  intro is os t i u o hJ _ hs
  exact hstep is os t i u o hJ hs

/-- **Progress**: a step defined in every state of an invariant gives runs that are defined. -/
theorem run_total {I : σ → Prop} (hstep : ∀ s i, I s → ∃ s' o, step s i = some (s', o) ∧ I s')
    {s : σ} (hs : I s) (is : List ι) : ∃ t os, run step s is = some (t, os) ∧ I t := by
  induction is generalizing s with
  | nil => exact ⟨s, [], rfl, hs⟩
  | cons i is ih =>
    obtain ⟨s', o, h1, h2⟩ := hstep s i hs
    obtain ⟨t, os, h3, h4⟩ := ih h2
    exact ⟨t, o :: os, by rw [run_cons_of h1, h3]; rfl, h4⟩

/-- **Bisimulation**: two machines that stay related and answer related on every input answer
related on every run. -/
theorem run_bisim {κ : Type} {step' : τ → ι → Option (τ × κ)} {J : σ → τ → Prop} {R : ο → κ → Prop}
    (hstep : ∀ s t i, J s t → ∃ s' o t' p, step s i = some (s', o) ∧ step' t i = some (t', p) ∧
      J s' t' ∧ R o p)
    {s : σ} {t : τ} (h0 : J s t) (is : List ι) :
    ∃ s' os t' ps, run step s is = some (s', os) ∧ run step' t is = some (t', ps) ∧
      J s' t' ∧ List.Forall₂ R os ps := by
  induction is generalizing s t with
  | nil => exact ⟨s, [], t, [], rfl, rfl, h0, .nil⟩
  | cons i is ih =>
    obtain ⟨s₁, o, t₁, p, hs, ht, h1, ho⟩ := hstep s t i h0
    obtain ⟨s₂, os, t₂, ps, hs₂, ht₂, h2, hos⟩ := ih h1
    refine ⟨s₂, o :: os, t₂, p :: ps, ?_, ?_, h2, .cons ho hos⟩
    · rw [run_cons_of hs, hs₂]
      rfl
    · rw [run_cons_of ht, ht₂]
      rfl

end Run
