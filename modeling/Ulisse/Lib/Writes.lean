import Mathlib.Logic.Function.Basic
import Mathlib.Data.List.Induction

/-!
# Lib.Writes — cells that are written one at a time

A run of writes leaves in each cell what was written to it last, or what it held before.  `store`
is one write on cells of which only some can be written (`works`); `stores_eq` says what a run
leaves in every cell.
-/

namespace Writes

variable {κ α : Type} [DecidableEq κ]

/-- What is written to a cell last, if anything is. -/
def last (log : List (κ × α)) (k : κ) : Option α :=
  (log.filterMap fun w => if w.1 = k then some w.2 else none).getLast?

@[simp] theorem last_nil (k : κ) : last ([] : List (κ × α)) k = none := rfl

theorem last_concat (log : List (κ × α)) (w : κ × α) (k : κ) :
    last (log ++ [w]) k = if w.1 = k then some w.2 else last log k := by
  unfold last
  rw [List.filterMap_append]
  split_ifs with hw
  · simp [hw]
  · simp [hw]

theorem last_append (log log' : List (κ × α)) (k : κ) :
    last (log ++ log') k = (last log' k).or (last log k) := by
  rw [last, List.filterMap_append, List.getLast?_append]
  rfl

/-- A log with at most one write for each of some cells. -/
theorem last_each {ks : List κ} (hks : ks.Nodup) (f : κ → Option α) (k : κ) :
    last (ks.filterMap fun j => (f j).map fun v => (j, v)) k = if k ∈ ks then f k else none := by
  induction ks using List.reverseRecOn with
  | nil => rfl
  | append_singleton ks j ih =>
    obtain ⟨hnodup, -, hdisjoint⟩ := List.nodup_append.mp hks
    have hj : j ∉ ks := fun h => hdisjoint j h j (List.mem_singleton_self j) rfl
    rw [List.filterMap_append, List.filterMap_cons, List.filterMap_nil]
    cases hf : f j with
    | none =>
      simp only [Option.map_none, List.append_nil, ih hnodup]
      by_cases hkj : k = j
      · subst hkj
        simp [hj, hf]
      · simp [hkj]
    | some v =>
      simp only [Option.map_some, last_concat, ih hnodup]
      by_cases hkj : k = j
      · subst hkj
        simp [hf]
      · simp [hkj, Ne.symm hkj]

/-- One write; a cell that does not work keeps what it holds. -/
def store (works : κ → Prop) [DecidablePred works] (m : κ → α) (w : κ × α) : κ → α :=
  if works w.1 then Function.update m w.1 w.2 else m

variable (works : κ → Prop) [DecidablePred works]

theorem store_self (m : κ → α) (k : κ) (v : α) :
    store works m (k, v) k = if works k then v else m k := by
  unfold store
  split_ifs
  · exact Function.update_self k v m
  · rfl

theorem store_of_ne (m : κ → α) {w : κ × α} {k : κ} (h : w.1 ≠ k) : store works m w k = m k := by
  unfold store
  split_ifs
  · exact Function.update_of_ne (Ne.symm h) w.2 m
  · rfl

/-- **Last write wins** in the cells that work, the others keep what they hold. -/
theorem stores_eq (m : κ → α) (log : List (κ × α)) (k : κ) :
    log.foldl (store works) m k = if works k then (last log k).getD (m k) else m k := by
  induction log using List.reverseRecOn with
  | nil => exact (ite_self (m k)).symm
  | append_singleton log w ih =>
    obtain ⟨j, v⟩ := w
    rw [List.foldl_append, List.foldl_cons, List.foldl_nil, last_concat]
    by_cases hj : j = k
    · subst hj
      rw [store_self, ih, if_pos rfl]
      split_ifs <;> rfl
    · rw [store_of_ne works _ hj, ih, if_neg hj]

end Writes
