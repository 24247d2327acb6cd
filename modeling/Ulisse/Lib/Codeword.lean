import Mathlib.Data.List.TakeWhile

/-!
# Lib.Codeword — texts that say where they end

The text that `f` makes of a value tells `u` of it if any text that starts with it shows this, and
where it ends.  Texts are put together from the back: a constant part in front changes nothing, and
letters of one kind are told if another kind follows.  If a text tells the value itself, a list of
texts tells the values in their order, also when not all of it is there yet
(`prefix_flatMap_iff`).
-/

namespace Codeword

variable {α β γ δ : Type}

/-- The text `f a` at the front of another tells `u a`, and what follows. -/
def Tells (f : α → List β) (u : α → γ) : Prop :=
  ∀ a b s t, f a ++ s = f b ++ t → u a = u b ∧ s = t

section Rules

variable {f : α → List β} {u : α → γ}

theorem tells_nil : Tells (fun _ : α => ([] : List β)) fun _ => () :=
  fun _ _ _ _ h => ⟨rfl, h⟩

theorem Tells.map {v : α → δ} (h : Tells f u) (huv : ∀ a b, u a = u b → v a = v b) :
    Tells f v := by
  intro a b s t heq
  obtain ⟨hu, hst⟩ := h a b s t heq
  exact ⟨huv a b hu, hst⟩

/-- A constant part in front. -/
theorem Tells.literal (h : Tells f u) (l : List β) : Tells (fun a => l ++ f a) u := by
  intro a b s t heq
  rw [List.append_assoc, List.append_assoc] at heq
  exact h a b s t (List.append_cancel_left heq)

/-- **Letters in front**, for which `p` holds, end where `p` does not hold. -/
theorem Tells.letters {n : α → List β} {p : β → Bool} {l : List β} {c : β} (h : Tells f u)
    (hn : ∀ a, ∀ b ∈ n a, p b = true) (hl : l.head? = some c) (hc : p c = false) :
    Tells (fun a => n a ++ (l ++ f a)) fun a => (n a, u a) := by
  obtain ⟨l, rfl⟩ := List.head?_eq_some_iff.mp hl
  have htake : ∀ a s, (n a ++ (c :: l ++ f a) ++ s).takeWhile p = n a := by
    intro a s
    rw [List.append_assoc, List.takeWhile_append_of_pos (hn a), List.cons_append, List.cons_append,
      List.takeWhile_cons_of_neg (by rw [hc]; exact Bool.false_ne_true), List.append_nil]
  intro a b s t heq
  have heq : n a ++ (c :: l ++ f a) ++ s = n b ++ (c :: l ++ f b) ++ t := heq
  have hletters : n a = n b := by
    rw [← htake a s, heq, htake b t]
  rw [hletters, List.append_assoc (n b), List.append_assoc (n b)] at heq
  obtain ⟨hu, hst⟩ := h.literal (c :: l) a b s t (List.append_cancel_left heq)
  exact ⟨Prod.ext hletters hu, hst⟩

/-- **The values are told** by their texts, as far as these go. -/
theorem prefix_flatMap_iff (h : Tells f id) (hne : ∀ a, f a ≠ []) {as bs : List α} :
    as.flatMap f <+: bs.flatMap f ↔ as <+: bs := by
  constructor
  · intro hprefix
    induction as generalizing bs with
    | nil => exact List.nil_prefix
    | cons a as ih =>
      rw [List.flatMap_cons] at hprefix
      cases bs with
      | nil => exact absurd (List.append_eq_nil_iff.mp (List.prefix_nil.mp hprefix)).1 (hne a)
      | cons b bs =>
        obtain ⟨s, hs⟩ := hprefix
        rw [List.flatMap_cons, List.append_assoc] at hs
        obtain ⟨hab, hrest⟩ := h _ _ _ _ hs
        exact List.cons_prefix_cons.mpr ⟨hab, ih ⟨s, hrest⟩⟩
  · rintro ⟨cs, rfl⟩
    rw [List.flatMap_append]
    exact List.prefix_append _ _

end Rules

end Codeword
