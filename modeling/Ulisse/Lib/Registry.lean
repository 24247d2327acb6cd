import Mathlib.Logic.Function.Basic
import Mathlib.Tactic.SplitIfs

/-!
# Lib.Registry — partial maps that calls bind and unbind

A registry binds keys of a range to values: `install` binds an unbound key of the range, `uninstall`
unbinds a bound one, and any other call is refused.  `step` says what a call makes of the bindings,
`accepts` when it is taken, and `after` folds calls.
-/

namespace Registry

/-- A partial map on the keys in the range `P`. -/
@[ext] structure Bindings {κ : Type} (P : κ → Prop) (ν : Type) where
  get : κ → Option ν
  inRange : ∀ k v, get k = some v → P k

/-- A call on a registry. -/
inductive Call (κ ν : Type) where
  | install (k : κ) (v : ν)
  | uninstall (k : κ)

/-- The key that a call is about. -/
def Call.key {κ ν : Type} : Call κ ν → κ
  | .install k _ => k
  | .uninstall k => k

variable {κ ν : Type} {P : κ → Prop}

namespace Bindings

/-- No key is bound. -/
def empty : Bindings P ν where
  get _ := none
  inRange := by
    intro k v h
    cases h

@[simp] theorem get_empty (k : κ) : (empty : Bindings P ν).get k = none := rfl

/-- When a call is taken: an install of an unbound key in the range, an uninstall of a bound one. -/
def accepts (R : Bindings P ν) : Call κ ν → Prop
  | .install k _ => P k ∧ R.get k = none
  | .uninstall k => ∃ v, R.get k = some v

variable [DecidableEq κ] [DecidablePred P]

/-- What a call makes of the bindings. -/
def step (R : Bindings P ν) : Call κ ν → Bindings P ν
  | .install k v =>
    if h : P k ∧ R.get k = none then
      { get := Function.update R.get k (some v)
        inRange := by
          intro j w hj
          by_cases he : j = k
          · rw [he]
            exact h.1
          · rw [Function.update_of_ne he] at hj
            exact R.inRange j w hj }
    else R
  | .uninstall k =>
    { get := Function.update R.get k none
      inRange := by
        intro j w hj
        by_cases he : j = k
        · rw [he, Function.update_self] at hj
          cases hj
        · rw [Function.update_of_ne he] at hj
          exact R.inRange j w hj }

/-- The bindings after a list of calls. -/
def after (R : Bindings P ν) (calls : List (Call κ ν)) : Bindings P ν := calls.foldl step R

@[simp] theorem after_nil (R : Bindings P ν) : R.after [] = R := rfl

theorem after_concat (R : Bindings P ν) (calls : List (Call κ ν)) (c : Call κ ν) :
    R.after (calls ++ [c]) = (R.after calls).step c := by
  rw [after, List.foldl_append]
  rfl

/-- A call moves the binding of its own key only. -/
theorem step_other (R : Bindings P ν) {c : Call κ ν} {k : κ} (h : k ≠ c.key) :
    (R.step c).get k = R.get k := by
  cases c with
  | install j v =>
    simp only [step]
    split_ifs
    · exact Function.update_of_ne h _ _
    · rfl
  | uninstall j => exact Function.update_of_ne h _ _

theorem step_install (R : Bindings P ν) {k : κ} {v : ν} (h : R.accepts (.install k v)) :
    (R.step (.install k v)).get k = some v := by
  simp only [step, dif_pos (show P k ∧ R.get k = none from h), Function.update_self]

theorem step_uninstall (R : Bindings P ν) (k : κ) : (R.step (.uninstall k)).get k = none := by
  simp only [step, Function.update_self]

/-- A call that is not taken changes nothing. -/
theorem step_refused (R : Bindings P ν) {c : Call κ ν} (h : ¬ R.accepts c) : R.step c = R := by
  cases c with
  | install k v => exact dif_neg h
  | uninstall k =>
    apply Bindings.ext
    funext j
    by_cases hj : j = k
    · rw [hj, step_uninstall]
      cases hg : R.get k with
      | none => rfl
      | some v => exact absurd ⟨v, hg⟩ h
    · exact R.step_other hj

end Bindings

end Registry
