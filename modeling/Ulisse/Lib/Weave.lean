import Mathlib.Data.Sum.Basic
import Ulisse.Lib.Run

/-!
# Lib.Weave — a machine of two halves

An input is for the left or for the right half, and the state is put together from one state each
(`Splits`).  A run of the whole is then a run of each half over the inputs that are its own, whatever
their interleaving: it is defined when both are, and each half answers what it answers alone
(`Splits.run_eq`).
-/

namespace Weave

open Run

variable {σ τ υ ι κ ο π : Type}

/-- What is for, or from, the left half. -/
def lefts (is : List (ι ⊕ κ)) : List ι := is.filterMap Sum.getLeft?

/-- What is for, or from, the right half. -/
def rights (is : List (ι ⊕ κ)) : List κ := is.filterMap Sum.getRight?

section Parts

variable (i : ι) (k : κ) (is js : List (ι ⊕ κ))

@[simp] theorem lefts_nil : lefts ([] : List (ι ⊕ κ)) = [] := rfl

@[simp] theorem rights_nil : rights ([] : List (ι ⊕ κ)) = [] := rfl

@[simp] theorem lefts_inl : lefts (.inl i :: is) = i :: lefts is := rfl

@[simp] theorem rights_inl : rights (.inl i :: is) = rights is := rfl

@[simp] theorem lefts_inr : lefts (.inr k :: is) = lefts is := rfl

@[simp] theorem rights_inr : rights (.inr k :: is) = k :: rights is := rfl

@[simp] theorem lefts_append : lefts (is ++ js) = lefts is ++ lefts js := List.filterMap_append

@[simp] theorem rights_append : rights (is ++ js) = rights is ++ rights js := List.filterMap_append

end Parts

/-- `step` moves one half of a joined state and answers from that half. -/
structure Splits (step : υ → ι ⊕ κ → Option (υ × (ο ⊕ π))) (f : σ → ι → Option (σ × ο))
    (g : τ → κ → Option (τ × π)) (join : σ → τ → υ) : Prop where
  left : ∀ s t i, step (join s t) (.inl i) = (f s i).map fun r => (join r.1 t, .inl r.2)
  right : ∀ s t k, step (join s t) (.inr k) = (g t k).map fun r => (join s r.1, .inr r.2)

section Runs

variable {step : υ → ι ⊕ κ → Option (υ × (ο ⊕ π))} {f : σ → ι → Option (σ × ο)}
  {g : τ → κ → Option (τ × π)} {join : σ → τ → υ}

/-- **Runs split**: the whole goes where the halves go, and answers what they answer. -/
theorem Splits.run_eq (h : Splits step f g join) (s : σ) (t : τ) (is : List (ι ⊕ κ)) :
    ((run step (join s t) is).map fun r => (r.1, lefts r.2, rights r.2)) =
      (run f s (lefts is)).bind fun a => (run g t (rights is)).map fun b =>
        (join a.1 b.1, a.2, b.2) := by
  induction is generalizing s t with
  | nil => rfl
  | cons x is ih =>
    cases x with
    | inl i =>
      rw [run_cons, h.left, lefts_inl, rights_inl, run_cons]
      cases f s i with
      | none => rfl
      | some r =>
        have hrest := ih r.1 t
        simp only [Option.map_some, Option.bind_some, Option.map_map]
        cases hl : run f r.1 (lefts is) with
        | none =>
          rw [hl, Option.bind_none, Option.map_eq_none_iff] at hrest
          rw [hrest]
          rfl
        | some a =>
          rw [hl, Option.bind_some] at hrest
          have hmap := congrArg
            (Option.map fun q : υ × List ο × List π => (q.1, r.2 :: q.2.1, q.2.2)) hrest
          rw [Option.map_map, Option.map_map] at hmap
          exact hmap
    | inr k =>
      rw [run_cons, h.right, lefts_inr, rights_inr, run_cons]
      cases g t k with
      | none =>
        simp only [Option.map_none, Option.bind_none]
        cases run f s (lefts is) <;> rfl
      | some r =>
        have hrest := ih s r.1
        simp only [Option.map_some, Option.bind_some, Option.map_map]
        cases hl : run f s (lefts is) with
        | none =>
          rw [hl, Option.bind_none, Option.map_eq_none_iff] at hrest
          rw [hrest]
          rfl
        | some a =>
          rw [hl, Option.bind_some] at hrest
          have hmap := congrArg
            (Option.map fun q : υ × List ο × List π => (q.1, q.2.1, r.2 :: q.2.2)) hrest
          rw [Option.map_map, Option.map_map] at hmap
          exact hmap

/-- A run of the whole, taken apart. -/
theorem Splits.run_some (h : Splits step f g join) {s : σ} {t : τ} {is : List (ι ⊕ κ)} {u : υ}
    {os : List (ο ⊕ π)} (hrun : run step (join s t) is = some (u, os)) :
    ∃ s' t', run f s (lefts is) = some (s', lefts os) ∧ run g t (rights is) = some (t', rights os) ∧
      u = join s' t' := by
  have he := h.run_eq s t is
  rw [hrun, Option.map_some] at he
  obtain ⟨⟨s', a⟩, ha, hb⟩ := Option.bind_eq_some_iff.mp he.symm
  obtain ⟨⟨t', b⟩, hg, hj⟩ := Option.map_eq_some_iff.mp hb
  simp only [Prod.mk.injEq] at hj
  obtain ⟨rfl, rfl, rfl⟩ := hj
  exact ⟨s', t', ha, hg, rfl⟩

end Runs

end Weave
