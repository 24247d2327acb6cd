import Mathlib.Data.List.TakeWhile
import Mathlib.Data.Nat.Digits.Lemmas

/-!
# Lib.Numeral — numbers as text

`text b n` are the digits of `n` in the base `b`, `value b cs` is the number that digits stand for;
one is the inverse of the other (`value_text`).  A text starts with a decimal numeral if it splits
into white space, a sign, digits and a rest (`Parts`); taking these off one by one finds them, if
there are any (`Parts.found`, `parts_of_found`).
-/

namespace Numeral

/-! ## Digits -/

/-- What a character counts as a digit; 16, if it is none. -/
def digitVal (c : UInt8) : ℕ :=
  if 48 ≤ c.toNat ∧ c.toNat ≤ 57 then c.toNat - 48
  else if 97 ≤ c.toNat ∧ c.toNat ≤ 102 then c.toNat - 87
  else if 65 ≤ c.toNat ∧ c.toNat ≤ 70 then c.toNat - 55
  else 16

/-- The character for a digit. -/
def digitChar (d : ℕ) : UInt8 := if d < 10 then UInt8.ofNat (48 + d) else UInt8.ofNat (87 + d)

def isDigit (b : ℕ) (c : UInt8) : Bool := digitVal c < b

/-- The number that the digits `cs` stand for, the first of them the highest. -/
def value (b : ℕ) (cs : List UInt8) : ℕ := cs.foldl (fun n c => b * n + digitVal c) 0

/-- The digits of a number. -/
def text (b n : ℕ) : List UInt8 :=
  if n = 0 then [48] else ((Nat.digits b n).map digitChar).reverse

section Digits

variable {b d n k : ℕ} {c : UInt8} {cs : List UInt8}

theorem digitVal_digitChar (h : d < 16) : digitVal (digitChar d) = d := by
  unfold digitChar
  split_ifs with hd
  · have hc : (UInt8.ofNat (48 + d)).toNat = 48 + d := by
      rw [UInt8.toNat_ofNat']
      omega
    rw [digitVal, if_pos (by omega), hc]
    omega
  · have hc : (UInt8.ofNat (87 + d)).toNat = 87 + d := by
      rw [UInt8.toNat_ofNat']
      omega
    rw [digitVal, if_neg (by omega), if_pos (by omega), hc]
    omega

theorem isDigit_digitChar (hd : d < b) (hb : b ≤ 16) : isDigit b (digitChar d) = true := by
  rw [isDigit, digitVal_digitChar (by omega)]
  exact decide_eq_true hd

theorem value_eq_ofDigits (b : ℕ) (cs : List UInt8) :
    value b cs = Nat.ofDigits b (cs.reverse.map digitVal) := by
  rw [Nat.ofDigits_eq_foldr, List.foldr_map, List.foldr_reverse, value]
  congr 1
  funext n c
  rw [Nat.add_comm]
  rfl

/-- **A number is read back** from its digits. -/
theorem value_text (hb : 1 < b) (hb' : b ≤ 16) (n : ℕ) : value b (text b n) = n := by
  by_cases h0 : n = 0
  · subst h0
    rfl
  · rw [text, if_neg h0, value_eq_ofDigits, List.reverse_reverse, List.map_map]
    have hid : (Nat.digits b n).map (digitVal ∘ digitChar) = Nat.digits b n := by
      rw [List.map_congr_left (g := id) ?_, List.map_id]
      intro d hd
      exact digitVal_digitChar (Nat.lt_of_lt_of_le (Nat.digits_lt_base hb hd) hb')
    rw [hid, Nat.ofDigits_digits]

theorem text_injective (hb : 1 < b) (hb' : b ≤ 16) : Function.Injective (text b) := by
  intro n k h
  rw [← value_text hb hb' n, h, value_text hb hb']

theorem length_text_le (hb : 1 < b) (hk : 0 < k) (hn : n < b ^ k) : (text b n).length ≤ k := by
  unfold text
  split_ifs with h0
  · exact hk
  · rw [List.length_reverse, List.length_map]
    exact (Nat.digits_length_le_iff hb n).mpr hn

theorem text_ne_nil (b n : ℕ) : text b n ≠ [] := by
  unfold text
  split_ifs with h0
  · exact List.cons_ne_nil _ _
  · intro h
    exact Nat.digits_ne_nil_iff_ne_zero.mpr h0
      (List.map_eq_nil_iff.mp (List.reverse_eq_nil_iff.mp h))

theorem isDigit_text (hb : 1 < b) (hb' : b ≤ 16) (n : ℕ) :
    ∀ c ∈ text b n, isDigit b c = true := by
  intro c hc
  unfold text at hc
  split_ifs at hc with h0
  · obtain rfl := List.mem_singleton.mp hc
    exact isDigit_digitChar (d := 0) (by omega) hb'
  · obtain ⟨d, hd, rfl⟩ := List.mem_map.mp (List.mem_reverse.mp hc)
    exact isDigit_digitChar (Nat.digits_lt_base hb hd) hb'

/-- Zeros in front of a numeral do not count. -/
theorem value_zeros (b k : ℕ) (cs : List UInt8) :
    value b (List.replicate k 48 ++ cs) = value b cs := by
  induction k with
  | zero => rfl
  | succ k ih => rwa [List.replicate_succ, List.cons_append, value, List.foldl_cons]

end Digits

/-! ## Numerals at the start of a text -/

def isSpace (c : UInt8) : Bool := c.toNat = 32 ∨ (9 ≤ c.toNat ∧ c.toNat ≤ 13)

/-- Whether a text starts with a minus, and what follows its sign. -/
def splitSign : List UInt8 → Bool × List UInt8
  | [] => (false, [])
  | c :: s => if c = 45 then (true, s) else if c = 43 then (false, s) else (false, c :: s)

def signed (neg : Bool) (n : ℕ) : ℤ := if neg then -n else n

/-- `s` is white space, a sign, digits and a rest that does not go on with a digit. -/
structure Parts (b : ℕ) (s ws sg ds rest : List UInt8) : Prop where
  text : s = ws ++ (sg ++ (ds ++ rest))
  blank : ∀ c ∈ ws, isSpace c = true
  sign : sg = [] ∨ sg = [43] ∨ sg = [45]
  digits : ds ≠ [] ∧ ∀ c ∈ ds, isDigit b c = true
  ends : ∀ c ∈ rest.head?, isDigit b c = false

/-- After white space, `s` starts with a signed decimal numeral, and it stands for `z`. -/
def Starts (s : List UInt8) (z : ℤ) : Prop :=
  ∃ ws sg ds rest, Parts 10 s ws sg ds rest ∧ z = signed (decide (sg = [45])) (value 10 ds)

section Parts

variable {b : ℕ} {c : UInt8} {s ws sg ds rest : List UInt8}

/-- A digit is neither white space nor a sign. -/
theorem isDigit_ne (hb : b ≤ 16) (h : isDigit b c = true) :
    isSpace c = false ∧ c ≠ 45 ∧ c ≠ 43 := by
  have hlt : digitVal c < 16 := Nat.lt_of_lt_of_le (of_decide_eq_true h) hb
  have hlo : 48 ≤ c.toNat := by
    unfold digitVal at hlt
    split_ifs at hlt <;> omega
  refine ⟨decide_eq_false (by omega), ?_, ?_⟩
  · rintro rfl
    exact absurd hlo (by decide)
  · rintro rfl
    exact absurd hlo (by decide)

theorem takeWhile_digits (h : ∀ c ∈ ds, isDigit b c = true)
    (hrest : ∀ c ∈ rest.head?, isDigit b c = false) :
    (ds ++ rest).takeWhile (isDigit b) = ds := by
  rw [List.takeWhile_append_of_pos h]
  cases rest with
  | nil => exact List.append_nil ds
  | cons c rest =>
    rw [List.takeWhile_cons_of_neg (by rw [hrest c rfl]; exact Bool.false_ne_true),
      List.append_nil]

theorem splitSign_append (hb : b ≤ 16) (hsign : sg = [] ∨ sg = [43] ∨ sg = [45])
    (hds : ds ≠ [] ∧ ∀ c ∈ ds, isDigit b c = true) :
    splitSign (sg ++ (ds ++ rest)) = (decide (sg = [45]), ds ++ rest) := by
  obtain ⟨hne, hdigits⟩ := hds
  rcases hsign with rfl | rfl | rfl
  · cases ds with
    | nil => exact absurd rfl hne
    | cons c ds =>
      obtain ⟨-, hminus, hplus⟩ := isDigit_ne hb (hdigits c List.mem_cons_self)
      show splitSign (c :: (ds ++ rest)) = _
      rw [splitSign, if_neg hminus, if_neg hplus]
      rfl
  · rfl
  · rfl

theorem splitSign_spec (s : List UInt8) :
    ∃ sg, s = sg ++ (splitSign s).2 ∧ (sg = [] ∨ sg = [43] ∨ sg = [45]) ∧
      decide (sg = [45]) = (splitSign s).1 := by
  cases s with
  | nil => exact ⟨[], rfl, Or.inl rfl, rfl⟩
  | cons c s =>
    rw [splitSign]
    split_ifs with hminus hplus
    · exact ⟨[45], by rw [hminus]; rfl, Or.inr (Or.inr rfl), rfl⟩
    · exact ⟨[43], by rw [hplus]; rfl, Or.inr (Or.inl rfl), rfl⟩
    · exact ⟨[], rfl, Or.inl rfl, rfl⟩

/-- A sign and digits do not start with white space. -/
theorem dropWhile_numeral (hb : b ≤ 16) (hsign : sg = [] ∨ sg = [43] ∨ sg = [45])
    (hds : ds ≠ [] ∧ ∀ c ∈ ds, isDigit b c = true) :
    (sg ++ (ds ++ rest)).dropWhile isSpace = sg ++ (ds ++ rest) := by
  obtain ⟨hne, hdigits⟩ := hds
  rcases hsign with rfl | rfl | rfl
  · cases ds with
    | nil => exact absurd rfl hne
    | cons c ds =>
      obtain ⟨hspace, -⟩ := isDigit_ne hb (hdigits c List.mem_cons_self)
      exact List.dropWhile_cons_of_neg (by rw [hspace]; exact Bool.false_ne_true)
  · rfl
  · rfl

/-- **The parts are found**: white space is skipped, then the sign, and the digits are what is
taken up to the rest. -/
theorem Parts.found (hb : b ≤ 16) (h : Parts b s ws sg ds rest) :
    splitSign (s.dropWhile isSpace) = (decide (sg = [45]), ds ++ rest) ∧
      (ds ++ rest).takeWhile (isDigit b) = ds := by
  refine ⟨?_, takeWhile_digits h.digits.2 h.ends⟩
  rw [h.text, List.dropWhile_append_of_pos h.blank, dropWhile_numeral hb h.sign h.digits,
    splitSign_append hb h.sign h.digits]

/-- **What is found are the parts.** -/
theorem parts_of_found (h : (splitSign (s.dropWhile isSpace)).2.takeWhile (isDigit b) ≠ []) :
    ∃ ws sg rest, decide (sg = [45]) = (splitSign (s.dropWhile isSpace)).1 ∧
      Parts b s ws sg ((splitSign (s.dropWhile isSpace)).2.takeWhile (isDigit b)) rest := by
  obtain ⟨sg, htext, hsign, hneg⟩ := splitSign_spec (s.dropWhile isSpace)
  refine ⟨s.takeWhile isSpace, sg, (splitSign (s.dropWhile isSpace)).2.dropWhile (isDigit b), hneg,
    ?_, fun c hc => List.mem_takeWhile_imp hc, hsign, ⟨h, fun c hc => List.mem_takeWhile_imp hc⟩,
    ?_⟩
  · rw [List.takeWhile_append_dropWhile, ← htext, List.takeWhile_append_dropWhile]
  · intro c hc
    have hhead := List.head?_dropWhile_not (isDigit b) (splitSign (s.dropWhile isSpace)).2
    rw [hc] at hhead
    exact hhead

/-- The digits of a number are a numeral for it. -/
theorem starts_text (n : ℕ) : Starts (text 10 n) n := by
  have hb : 1 < 10 := Nat.le_add_right 2 8
  have hb' : 10 ≤ 16 := Nat.le_add_right 10 6
  have hdigits : ∀ c ∈ text 10 n, isDigit 10 c = true := isDigit_text hb hb' n
  refine ⟨[], [], text 10 n, [], ⟨?_, ?_, Or.inl rfl, ⟨text_ne_nil 10 n, hdigits⟩, ?_⟩, ?_⟩
  · rw [List.append_nil]
    rfl
  · intro c hc
    cases hc
  · intro c hc
    cases hc
  · show (n : ℤ) = (value 10 (text 10 n) : ℕ)
    rw [value_text hb hb']

/-- A text starts with one numeral. -/
theorem Starts.unique {z z' : ℤ} (h : Starts s z) (h' : Starts s z') : z = z' := by
  obtain ⟨ws, sg, ds, rest, hparts, rfl⟩ := h
  obtain ⟨ws', sg', ds', rest', hparts', rfl⟩ := h'
  obtain ⟨hsplit, htake⟩ := hparts.found (Nat.le_add_right 10 6)
  obtain ⟨hsplit', htake'⟩ := hparts'.found (Nat.le_add_right 10 6)
  obtain ⟨hneg, hds⟩ := Prod.mk.inj (hsplit.symm.trans hsplit')
  rw [hneg, ← htake, hds, htake']

end Parts

end Numeral
