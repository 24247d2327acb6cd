import Ulisse.Lib.ByteMem
import Ulisse.Lib.Numeral

/-!
# Lib.Stdio — the integer conversions of `sprintf` and `sscanf`

The conversions `d`, `u` and `x` for integers of a given size, with a `long` of 64 bits: the scanner
takes the longest numeral, converts it by `strtol` or `strtoul`, which stop at the ends of their
range, and cuts the result to the size.  What is printed is read back (`sscanf_sprintf`), and a
numeral in the range of its type is stored as it is (`holds_bytesOf`).
-/

namespace Stdio

open Numeral ByteMem

/-! ## The conversions -/

inductive Conv where
  | d
  | u
  | x
  deriving DecidableEq

def Conv.base : Conv → ℕ
  | d => 10
  | u => 10
  | x => 16

/-- A conversion: of an integer of `bytes` bytes, printed in at least `width` characters. -/
structure Spec where
  bytes : ℕ
  conv : Conv
  width : ℕ

/-- A sign and digits, with zeros between them up to the width. -/
def zeroPad (width : ℕ) (sg ds : List UInt8) : List UInt8 :=
  sg ++ (List.replicate (width - (sg ++ ds).length) 48 ++ ds)

/-- The text of an argument. -/
def sprintf (spec : Spec) (arg : BitVec 32) : List UInt8 :=
  let v := arg.setWidth (8 * spec.bytes)
  match spec.conv with
  | .d => zeroPad spec.width (if v.toInt < 0 then [45] else []) (text 10 v.toInt.natAbs)
  | .u => zeroPad spec.width [] (text 10 v.toNat)
  | .x => zeroPad spec.width [] (text 16 v.toNat)

/-- What becomes of a conversion: the end of the text is met first, there is no numeral, or a
number is assigned. -/
inductive Scan where
  | eof
  | mismatch
  | stored (num : ℤ)
  deriving DecidableEq

/-- What `sscanf` returns. -/
def Scan.ret : Scan → ℤ
  | eof => -1
  | mismatch => 0
  | stored _ => 1

def strtol (neg : Bool) (n : ℕ) : ℤ := max (-2 ^ 63) (min (signed neg n) (2 ^ 63 - 1))

/-- A minus negates the number as an unsigned one. -/
def strtoul (neg : Bool) (n : ℕ) : ℤ := if 2 ^ 64 ≤ n then 2 ^ 64 - 1 else signed neg n % 2 ^ 64

def Conv.convert : Conv → Bool → ℕ → ℤ
  | d => strtol
  | u => strtoul
  | x => strtoul

/-- The x of 0x is passed over by the conversion `x`. -/
def dropPrefix : Conv → List UInt8 → List UInt8
  | .x, 48 :: c :: s => if c = 120 ∨ c = 88 then 48 :: s else 48 :: c :: s
  | _, s => s

def sscanf (conv : Conv) (s : List UInt8) : Scan :=
  if s.dropWhile isSpace = [] then .eof
  else
    let r := splitSign (s.dropWhile isSpace)
    let ds := (dropPrefix conv r.2).takeWhile (isDigit conv.base)
    if ds = [] then .mismatch else .stored (conv.convert r.1 (value conv.base ds))

/-! ## The integers in memory -/

/-- The bytes that a number is cut to. -/
def Spec.bytesOf (spec : Spec) (num : ℤ) : List UInt8 :=
  bytesLE spec.bytes (num % (256 ^ spec.bytes : ℕ)).toNat

/-- The integer that bytes are. -/
def Spec.holds (spec : Spec) (bs : List UInt8) : ℤ :=
  match spec.conv with
  | .d => (BitVec.ofNat (8 * spec.bytes) (le bs)).toInt
  | .u => le bs
  | .x => le bs

/-- The integer is one of the type of the conversion. -/
def Spec.InRange (spec : Spec) (z : ℤ) : Prop :=
  match spec.conv with
  | .d => -((2 ^ (8 * spec.bytes - 1) : ℕ) : ℤ) ≤ z ∧ z < (2 ^ (8 * spec.bytes - 1) : ℕ)
  | .u => 0 ≤ z ∧ z < (2 ^ (8 * spec.bytes) : ℕ)
  | .x => 0 ≤ z ∧ z < (2 ^ (8 * spec.bytes) : ℕ)

section Lemmas

variable {spec : Spec} {conv : Conv} {neg : Bool} {n : ℕ} {z num : ℤ} {arg : BitVec 32}
  {s ws sg ds rest : List UInt8}

theorem base_le (conv : Conv) : conv.base ≤ 16 := by
  cases conv <;> decide

theorem one_lt_base (conv : Conv) : 1 < conv.base := by
  cases conv <;> decide

theorem base_of_ne (hconv : conv ≠ .x) : conv.base = 10 := by
  cases conv with
  | d => rfl
  | u => rfl
  | x => exact absurd rfl hconv

theorem strtol_of_inRange (h1 : -2 ^ 63 ≤ signed neg n) (h2 : signed neg n < 2 ^ 63) :
    strtol neg n = signed neg n := by
  rw [strtol, min_eq_left (by omega), max_eq_right h1]

theorem strtoul_of_inRange (h1 : 0 ≤ signed neg n) (h2 : signed neg n < 2 ^ 64) :
    strtoul neg n = signed neg n := by
  have hn : n < 2 ^ 64 := by
    cases neg with
    | false =>
      have h : (n : ℤ) < 2 ^ 64 := h2
      omega
    | true =>
      have h : 0 ≤ -(n : ℤ) := h1
      omega
  rw [strtoul, if_neg (by omega), Int.emod_eq_of_lt h1 h2]

/-- **A numeral in range** is converted to its number. -/
theorem convert_of_inRange (hb : spec.bytes ≤ 8) (h : spec.InRange (signed neg n)) :
    spec.conv.convert neg n = signed neg n := by
  have hhalf : 2 ^ (8 * spec.bytes - 1) ≤ 2 ^ 63 := Nat.pow_le_pow_right Nat.two_pos (by omega)
  have hfull : 2 ^ (8 * spec.bytes) ≤ 2 ^ 64 := Nat.pow_le_pow_right Nat.two_pos (by omega)
  unfold Spec.InRange at h
  cases hconv : spec.conv <;> rw [hconv] at h <;> obtain ⟨h1, h2⟩ := h
  · exact strtol_of_inRange (by omega) (by omega)
  · exact strtoul_of_inRange h1 (by omega)
  · exact strtoul_of_inRange h1 (by omega)

/-! ### Reading -/

theorem dropPrefix_digits (conv : Conv) (hds : ∀ c ∈ ds, isDigit conv.base c = true) :
    dropPrefix conv ds = ds := by
  unfold dropPrefix
  split
  · rename_i c s
    have hc := hds c (List.mem_cons_of_mem _ List.mem_cons_self)
    have hne : ¬ (c = 120 ∨ c = 88) := by
      rintro (rfl | rfl)
      · exact absurd hc (by decide)
      · exact absurd hc (by decide)
    rw [if_neg hne]
  · rfl

theorem dropPrefix_of_ne (hconv : conv ≠ .x) (s : List UInt8) : dropPrefix conv s = s := by
  cases conv with
  | d => rfl
  | u => rfl
  | x => exact absurd rfl hconv

/-- **Digits are read**, and for a decimal conversion whatever follows them. -/
theorem sscanf_parts (hconv : conv ≠ .x ∨ rest = []) (h : Parts conv.base s ws sg ds rest) :
    sscanf conv s = .stored (conv.convert (decide (sg = [45])) (value conv.base ds)) := by
  obtain ⟨hsplit, htake⟩ := h.found (base_le conv)
  have hdrop : dropPrefix conv (ds ++ rest) = ds ++ rest := by
    rcases hconv with hconv | rfl
    · exact dropPrefix_of_ne hconv _
    · rw [List.append_nil]
      exact dropPrefix_digits conv h.digits.2
  have hsome : s.dropWhile isSpace ≠ [] := by
    intro hnil
    rw [hnil] at hsplit
    exact h.digits.1 (List.append_eq_nil_iff.mp (congrArg Prod.snd hsplit).symm).1
  rw [sscanf, if_neg hsome, hsplit]
  simp only [hdrop, htake]
  exact if_neg h.digits.1

/-- **A number is assigned** only if there is a numeral. -/
theorem parts_of_stored (hconv : conv ≠ .x) (h : sscanf conv s = .stored num) :
    ∃ ws sg ds rest, Parts conv.base s ws sg ds rest := by
  simp only [sscanf, dropPrefix_of_ne hconv] at h
  split_ifs at h with hnil hds
  obtain ⟨ws, sg, rest, -, hparts⟩ := parts_of_found hds
  exact ⟨ws, sg, _, rest, hparts⟩

/-! ### Reading what was printed -/

/-- **A printed number is read**, whatever its padding. -/
theorem sscanf_zeroPad (conv : Conv) (width n : ℕ) (hsign : sg = [] ∨ sg = [43] ∨ sg = [45]) :
    sscanf conv (zeroPad width sg (text conv.base n)) =
      .stored (conv.convert (decide (sg = [45])) n) := by
  have hdigits : ∀ c ∈ List.replicate (width - (sg ++ text conv.base n).length) 48 ++
      text conv.base n, isDigit conv.base c = true := by
    intro c hc
    rcases List.mem_append.mp hc with hc | hc
    · rw [List.eq_of_mem_replicate hc]
      exact isDigit_digitChar (d := 0) (Nat.lt_of_succ_lt (one_lt_base conv)) (base_le conv)
    · exact isDigit_text (one_lt_base conv) (base_le conv) n c hc
  have hparts : Parts conv.base (zeroPad width sg (text conv.base n)) [] sg
      (List.replicate (width - (sg ++ text conv.base n).length) 48 ++ text conv.base n) [] := by
    refine ⟨?_, ?_, hsign, ⟨?_, hdigits⟩, ?_⟩
    · rw [List.append_nil]
      rfl
    · intro c hc
      cases hc
    · intro hnil
      exact text_ne_nil _ _ (List.append_eq_nil_iff.mp hnil).2
    · intro c hc
      cases hc
  rw [sscanf_parts (Or.inr rfl) hparts, value_zeros, value_text (one_lt_base conv) (base_le conv)]

theorem pow_256 (k : ℕ) : 256 ^ k = 2 ^ (8 * k) := by
  rw [Nat.pow_mul]

theorem cut_toNat {k : ℕ} (v : BitVec k) : ((v.toNat : ℤ) % (2 ^ k : ℕ)).toNat = v.toNat := by
  rw [← Int.natCast_emod, Int.toNat_natCast, Nat.mod_eq_of_lt v.isLt]

theorem cut_toInt {k : ℕ} (v : BitVec k) : (v.toInt % (2 ^ k : ℕ)).toNat = v.toNat := by
  rw [BitVec.toInt_eq_toNat_bmod, Int.bmod_emod, cut_toNat]

theorem inRange_toInt (bytes width : ℕ) (v : BitVec (8 * bytes)) :
    Spec.InRange ⟨bytes, .d, width⟩ v.toInt := by
  have hlo := v.le_toInt
  have hhi := v.toInt_lt
  constructor
  · exact_mod_cast hlo
  · exact_mod_cast hhi

/-- The sign and the digits that are printed for an integer. -/
theorem signed_natAbs (z : ℤ) :
    signed (decide ((if z < 0 then [45] else []) = ([45] : List UInt8))) z.natAbs = z := by
  split_ifs with hneg
  · show -(z.natAbs : ℤ) = z
    omega
  · show (z.natAbs : ℤ) = z
    omega

/-- What is printed without a sign is converted to what it was. -/
theorem convert_toNat (hb : spec.bytes ≤ 8) (hconv : spec.conv ≠ .d)
    (v : BitVec (8 * spec.bytes)) : spec.conv.convert false v.toNat = v.toNat := by
  have hrange : spec.InRange (signed false v.toNat) := by
    unfold Spec.InRange
    cases hc : spec.conv with
    | d => exact absurd hc hconv
    | u => exact ⟨Int.natCast_nonneg _, Int.ofNat_lt.mpr v.isLt⟩
    | x => exact ⟨Int.natCast_nonneg _, Int.ofNat_lt.mpr v.isLt⟩
  exact convert_of_inRange hb hrange

/-- **What is printed is read back**, cut to the size of the type. -/
theorem sscanf_sprintf (spec : Spec) (hb : spec.bytes ≤ 8) (arg : BitVec 32) :
    ∃ num, sscanf spec.conv (sprintf spec arg) = .stored num ∧
      (num % (256 ^ spec.bytes : ℕ)).toNat = (arg.setWidth (8 * spec.bytes)).toNat := by
  obtain ⟨bytes, conv, width⟩ := spec
  rw [pow_256]
  cases conv with
  | d =>
    have hz := signed_natAbs (arg.setWidth (8 * bytes)).toInt
    have hrange := inRange_toInt bytes width (arg.setWidth (8 * bytes))
    rw [← hz] at hrange
    refine ⟨(arg.setWidth (8 * bytes)).toInt, ?_, cut_toInt _⟩
    rw [← (convert_of_inRange hb hrange).trans hz]
    refine sscanf_zeroPad .d width _ ?_
    split_ifs
    · exact Or.inr (Or.inr rfl)
    · exact Or.inl rfl
  | u =>
    have hconvert := convert_toNat hb (show Conv.u ≠ .d by decide) (arg.setWidth (8 * bytes))
    refine ⟨(arg.setWidth (8 * bytes)).toNat, ?_, cut_toNat _⟩
    exact (sscanf_zeroPad .u width _ (Or.inl rfl)).trans (congrArg Scan.stored hconvert)
  | x =>
    have hconvert := convert_toNat hb (show Conv.x ≠ .d by decide) (arg.setWidth (8 * bytes))
    refine ⟨(arg.setWidth (8 * bytes)).toNat, ?_, cut_toNat _⟩
    exact (sscanf_zeroPad .x width _ (Or.inl rfl)).trans (congrArg Scan.stored hconvert)

/-- **A number in range** is held by the bytes that it is cut to. -/
theorem holds_bytesOf (hpos : 0 < spec.bytes) (h : spec.InRange z) :
    spec.holds (spec.bytesOf z) = z := by
  have hmod : 0 ≤ z % (2 ^ (8 * spec.bytes) : ℕ) :=
    Int.emod_nonneg _ (Int.natCast_ne_zero.mpr (Nat.two_pow_pos _).ne')
  have hle : (le (spec.bytesOf z) : ℤ) = z % (2 ^ (8 * spec.bytes) : ℕ) := by
    rw [Spec.bytesOf, le_bytesLE, pow_256, Int.natCast_emod, Int.toNat_of_nonneg hmod,
      Int.emod_emod]
  unfold Spec.holds
  unfold Spec.InRange at h
  cases hconv : spec.conv <;> rw [hconv] at h <;> obtain ⟨h1, h2⟩ := h
  · have htwo : 2 ^ (8 * spec.bytes) = 2 * 2 ^ (8 * spec.bytes - 1) := by
      rw [← Nat.pow_succ']
      congr 1
      omega
    show (BitVec.ofNat (8 * spec.bytes) (le (spec.bytesOf z))).toInt = z
    rw [BitVec.toInt_eq_toNat_bmod, BitVec.toNat_ofNat, Int.natCast_emod, hle, Int.emod_emod,
      Int.emod_bmod]
    exact Int.bmod_eq_of_le (by omega) (by omega)
  · exact hle.trans (Int.emod_eq_of_lt h1 h2)
  · exact hle.trans (Int.emod_eq_of_lt h1 h2)

end Lemmas

/-! ## `atoi` -/

/-- A number as a `long`, which stops at the ends of its range, cut to an `int`. -/
def cutInt (z : ℤ) : ℤ := (max (-2 ^ 63) (min z (2 ^ 63 - 1))).bmod (2 ^ 32)

/-- `atoi`, which is `strtol` cut to an `int`. -/
def atoi (s : List UInt8) : ℤ :=
  let r := splitSign (s.dropWhile isSpace)
  (strtol r.1 (value 10 (r.2.takeWhile (isDigit 10)))).bmod (2 ^ 32)

/-- The number of a text: of the numeral that it starts with, or 0. -/
def Counts (s : List UInt8) (z : ℤ) : Prop := Starts s z ∨ z = 0 ∧ ∀ z', ¬ Starts s z'

theorem atoi_int (s : List UInt8) : -2147483648 ≤ atoi s ∧ atoi s < 2147483648 :=
  ⟨Int.le_bmod (by decide), Int.bmod_lt (by decide)⟩

/-- **`atoi`** of a text that counts as a number. -/
theorem atoi_counts {s : List UInt8} {z : ℤ} (h : Counts s z) : atoi s = cutInt z := by
  have hz : signed (splitSign (s.dropWhile isSpace)).1
      (value 10 ((splitSign (s.dropWhile isSpace)).2.takeWhile (isDigit 10))) = z := by
    by_cases hds : (splitSign (s.dropWhile isSpace)).2.takeWhile (isDigit 10) = []
    · have hnone : ¬ Starts s z := by
        rintro ⟨ws, sg, ds, rest, hparts, -⟩
        obtain ⟨hsplit, htake⟩ := hparts.found (Nat.le_add_right 10 6)
        rw [hsplit, htake] at hds
        exact hparts.digits.1 hds
      rw [hds, (h.resolve_left hnone).1]
      cases (splitSign (s.dropWhile isSpace)).1 <;> rfl
    · obtain ⟨ws, sg, rest, hneg, hparts⟩ := parts_of_found hds
      have hfound : Starts s _ := ⟨ws, sg, _, rest, hparts, rfl⟩
      rw [← hneg]
      rcases h with h | ⟨-, h⟩
      · exact hfound.unique h
      · exact absurd hfound (h _)
  rw [atoi, cutInt, ← hz]
  rfl

/-- Past the end of an `int`, and past that of a `long`. -/
example : atoi [50, 49, 52, 55, 52, 56, 51, 54, 52, 56] = -2147483648 ∧
    atoi (List.replicate 20 57) = -1 := by decide +kernel

end Stdio
