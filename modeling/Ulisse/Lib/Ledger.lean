import Mathlib.Data.Finset.Basic
import Mathlib.Data.Finset.Dedup

/-!
# Lib.Ledger — resources that are taken and given back

A ledger is the set of the resources that are held: blocks of a heap, open descriptors.  What is
taken is new (`Fresh`), and only what is held can be given back (`release`).  Giving back a list is
defined exactly if it has no entry twice and all of them are held (`releaseAll_some`); it brings back
the ledger from before some resources were taken exactly if it is a permutation of these
(`releaseAll_restores`).
-/

namespace Ledger

variable {ρ : Type} [DecidableEq ρ]

/-- The ledger once `a` is given back; `none` if it is not held. -/
def release (a : ρ) (held : Finset ρ) : Option (Finset ρ) :=
  if a ∈ held then some (held.erase a) else none

/-- Giving back one after the other. -/
def releaseAll : List ρ → Finset ρ → Option (Finset ρ)
  | [], held => some held
  | a :: as, held => (release a held).bind (releaseAll as)

/-- The ledger once `as` are taken. -/
def takeAll (as : List ρ) (held : Finset ρ) : Finset ρ := as.toFinset ∪ held

/-- `as` can be taken: they are different, and none is held. -/
structure Fresh (as : List ρ) (held : Finset ρ) : Prop where
  nodup : as.Nodup
  unheld : ∀ a ∈ as, a ∉ held

instance (as : List ρ) (held : Finset ρ) : Decidable (Fresh as held) :=
  decidable_of_iff (as.Nodup ∧ ∀ a ∈ as, a ∉ held)
    ⟨fun ⟨h1, h2⟩ => ⟨h1, h2⟩, fun ⟨h1, h2⟩ => ⟨h1, h2⟩⟩

variable {as bs : List ρ} {held rest : Finset ρ}

theorem mem_takeAll {a : ρ} : a ∈ takeAll as held ↔ a ∈ as ∨ a ∈ held := by
  rw [takeAll, Finset.mem_union, List.mem_toFinset]

@[simp] theorem takeAll_nil (held : Finset ρ) : takeAll [] held = held := by
  ext a
  rw [mem_takeAll]
  exact or_iff_right List.not_mem_nil

theorem takeAll_perm (h : as.Perm bs) : takeAll as held = takeAll bs held := by
  ext a
  rw [mem_takeAll, mem_takeAll, h.mem_iff]

theorem takeAll_cons (a : ρ) (as : List ρ) (held : Finset ρ) :
    takeAll (a :: as) held = insert a (takeAll as held) := by
  ext b
  rw [mem_takeAll, Finset.mem_insert, mem_takeAll, List.mem_cons, or_assoc]

/-- What was taken last and is given back leaves the rest. -/
theorem takeAll_erase {a : ρ} (h : Fresh (a :: as) held) :
    (takeAll (a :: as) held).erase a = takeAll as held := by
  have ha : a ∉ takeAll as held := by
    intro hm
    rcases mem_takeAll.mp hm with h1 | h2
    · exact (List.nodup_cons.mp h.nodup).1 h1
    · exact h.unheld a List.mem_cons_self h2
  rw [takeAll_cons, Finset.erase_insert ha]

theorem takeAll_append (as bs : List ρ) (held : Finset ρ) :
    takeAll (as ++ bs) held = takeAll as (takeAll bs held) := by
  ext a
  rw [mem_takeAll, mem_takeAll, mem_takeAll, List.mem_append, or_assoc]

omit [DecidableEq ρ] in
theorem Fresh.perm (h : Fresh as held) (hp : as.Perm bs) : Fresh bs held :=
  ⟨hp.nodup_iff.mp h.nodup, fun a ha => h.unheld a (hp.mem_iff.mpr ha)⟩

/-- Lists are fresh together if one of them is still fresh once the other was taken. -/
theorem fresh_append : Fresh (as ++ bs) held ↔ Fresh bs held ∧ Fresh as (takeAll bs held) := by
  constructor
  · rintro ⟨hn, hu⟩
    obtain ⟨ha, hb, hne⟩ := List.nodup_append.mp hn
    refine ⟨⟨hb, fun a h => hu a (List.mem_append_right _ h)⟩, ha, fun a h hm => ?_⟩
    rcases mem_takeAll.mp hm with hab | hheld
    · exact hne a h a hab rfl
    · exact hu a (List.mem_append_left _ h) hheld
  · rintro ⟨⟨hb, hub⟩, ha, hua⟩
    refine ⟨List.nodup_append.mpr ⟨ha, hb, ?_⟩, fun a h hm => ?_⟩
    · rintro a h b hb' rfl
      exact hua a h (mem_takeAll.mpr (Or.inl hb'))
    · rcases List.mem_append.mp h with h | h
      · exact hua a h (mem_takeAll.mpr (Or.inr hm))
      · exact hub a h hm

/-- **Giving back** is defined for different resources that are held. -/
theorem releaseAll_some : releaseAll as held = some rest ↔
    as.Nodup ∧ (∀ a ∈ as, a ∈ held) ∧ rest = held \ as.toFinset := by
  induction as generalizing held with
  | nil =>
    rw [releaseAll, List.toFinset_nil, Finset.sdiff_empty, Option.some_inj]
    exact ⟨fun h => ⟨List.nodup_nil, fun a ha => absurd ha List.not_mem_nil, h.symm⟩,
      fun h => h.2.2.symm⟩
  | cons a as ih =>
    rw [releaseAll, release]
    split_ifs with ha
    · rw [Option.bind_some, ih, List.nodup_cons, List.toFinset_cons]
      have hrest : held.erase a \ as.toFinset = held \ insert a as.toFinset := by
        ext b
        simp only [Finset.mem_sdiff, Finset.mem_erase, Finset.mem_insert]
        tauto
      rw [hrest]
      constructor
      · rintro ⟨hn, hall, hr⟩
        refine ⟨⟨fun hm => (Finset.mem_erase.mp (hall a hm)).1 rfl, hn⟩, fun b hb => ?_, hr⟩
        rcases List.mem_cons.mp hb with rfl | hb
        · exact ha
        · exact Finset.mem_of_mem_erase (hall b hb)
      · rintro ⟨⟨hnot, hn⟩, hall, hr⟩
        refine ⟨hn, fun b hb => Finset.mem_erase.mpr ⟨?_, hall b (List.mem_cons_of_mem _ hb)⟩, hr⟩
        rintro rfl
        exact hnot hb
    · refine ⟨fun h => ?_, fun h => absurd (h.2.1 a List.mem_cons_self) ha⟩
      cases h

/-- **What is given back is what was taken**: only then the ledger is what it was. -/
theorem releaseAll_restores (h : Fresh as held) :
    releaseAll bs (takeAll as held) = some held ↔ bs.Perm as := by
  rw [releaseAll_some]
  constructor
  · rintro ⟨hn, hall, hrest⟩
    refine (List.perm_ext_iff_of_nodup hn h.nodup).mpr fun a => ⟨fun hb => ?_, fun ha => ?_⟩
    · refine (mem_takeAll.mp (hall a hb)).resolve_right fun hheld => ?_
      rw [hrest] at hheld
      exact (Finset.mem_sdiff.mp hheld).2 (List.mem_toFinset.mpr hb)
    · by_contra hb
      refine h.unheld a ha ?_
      rw [hrest]
      exact Finset.mem_sdiff.mpr
        ⟨mem_takeAll.mpr (Or.inl ha), fun hm => hb (List.mem_toFinset.mp hm)⟩
  · intro hp
    refine ⟨hp.nodup_iff.mpr h.nodup, fun a ha => mem_takeAll.mpr (Or.inl (hp.mem_iff.mp ha)), ?_⟩
    ext a
    rw [Finset.mem_sdiff, mem_takeAll, List.mem_toFinset, hp.mem_iff]
    have hu := h.unheld a
    tauto

end Ledger
