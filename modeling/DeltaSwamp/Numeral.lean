import DeltaSwamp.Rounding
import DeltaSwamp.Text
import Mathlib.Tactic.IntervalCases

/-!
# Numerals

Decimal numbers as text (a sign, digits with a point, and an exponent), how a whole
number is written and read back, what a run of digits is worth, and the fields of a
fixed width that dates and times are written in.
-/

namespace DeltaSwamp

open List

/-- A number as it is written: its digits, and how many of them stand behind the point. -/
structure Numeral where
  digits : Int
  scale : Int
  deriving DecidableEq

namespace Numeral

def value (n : Numeral) : ℚ := n.digits * 10 ^ (-n.scale)

def splitSign : List Char → Int × List Char
  | '-' :: text => (-1, text)
  | '+' :: text => (1, text)
  | text => (1, text)

/-- A sign and digits. -/
def readWhole (text : List Char) : Option Int :=
  let (sign, digits) := splitSign text
  if digits ≠ [] ∧ digits.all Char.isDigit then some (sign * Nat.ofDigitChars 10 digits 0)
  else none

def readExponent : List Char → Option Int
  | [] => some 0
  | c :: text => if c = 'e' ∨ c = 'E' then readWhole text else none

/-- The digits behind a point, and what follows them. -/
def readFraction : List Char → List Char × List Char
  | '.' :: text => (text.takeWhile Char.isDigit, text.dropWhile Char.isDigit)
  | text => ([], text)

def read (text : List Char) : Option Numeral :=
  let (sign, text) := splitSign text
  let whole := text.takeWhile Char.isDigit
  let (fraction, rest) := readFraction (text.dropWhile Char.isDigit)
  if whole ++ fraction = [] then none
  else (readExponent rest).map fun e =>
    ⟨sign * Nat.ofDigitChars 10 (whole ++ fraction) 0, fraction.length - e⟩

theorem value_whole (n : Int) : value ⟨n, 0⟩ = n := by simp [value]

theorem read_whole {text : List Char} {n : Int} (h : readWhole text = some n) :
    read text = some ⟨n, 0⟩ := by
  unfold readWhole at h
  unfold read
  cases hsplit : splitSign text with
  | mk sign digits =>
    rw [hsplit] at h
    simp only at h ⊢
    split_ifs at h with hdigits
    obtain ⟨hne, hall⟩ := hdigits
    cases h
    have htake : digits.takeWhile Char.isDigit = digits :=
      List.takeWhile_eq_self_iff.mpr (List.all_eq_true.mp hall)
    have hdrop : digits.dropWhile Char.isDigit = [] :=
      List.dropWhile_eq_nil_iff.mpr (List.all_eq_true.mp hall)
    simp [htake, hdrop, readFraction, readExponent, hne]

example : read "-1.50e1".toList = some ⟨-150, 1⟩ := by decide

/-- The digits a text starts with, and what follows them. -/
def run (text : Text) : Text × Text := (text.takeWhile Char.isDigit, text.dropWhile Char.isDigit)

/-- The number a run of digits spells. -/
def number (digits : Text) : ℕ := Nat.ofDigitChars 10 digits 0

/-- The digits of a natural number. -/
def natural (n : ℕ) : Text := Nat.toDigits 10 n

def minus (negative : Bool) : Text := if negative then ['-'] else []

/-- `str` of a whole number. -/
def int (n : ℤ) : Text := minus (n < 0) ++ natural n.natAbs

/-- A numeral with the sign given. -/
def signed (negative : Bool) (n : Numeral) : Numeral := if negative then ⟨-n.digits, n.scale⟩ else n

section
variable {whole frac rest : Text}

theorem run_append (hwhole : ∀ c ∈ whole, c.isDigit = true)
    (hrest : ∀ c ∈ rest.head?, c.isDigit = false) : run (whole ++ rest) = (whole, rest) := by
  unfold run
  rw [takeWhile_append_of_pos hwhole, dropWhile_append_of_pos hwhole]
  cases rest with
  | nil => simp
  | cons c rest =>
    have hc : ¬ c.isDigit = true := by simpa using hrest c rfl
    rw [takeWhile_cons_of_neg hc, dropWhile_cons_of_neg hc, append_nil]

theorem natural_ne_nil (n : ℕ) : natural n ≠ [] := Nat.toDigits_ne_nil

theorem natural_digit (n : ℕ) : ∀ c ∈ natural n, c.isDigit = true := by
  intro c hc
  exact Nat.isDigit_of_mem_toDigits (by decide) (by decide) hc

theorem number_natural (n : ℕ) : number (natural n) = n :=
  Nat.ofDigitChars_toDigits (by decide) (by decide)

theorem number_append (first last : Text) :
    number (first ++ last) = 10 ^ last.length * number first + number last := by
  unfold number
  rw [Nat.ofDigitChars_append, Nat.ofDigitChars_eq_ofDigitChars_zero]

theorem number_zeros (n : ℕ) (digits : Text) :
    number (List.replicate n '0' ++ digits) = number digits := by
  rw [number_append]
  unfold number
  rw [Nat.ofDigitChars_replicate_zero]
  omega

theorem number_shift (digits : Text) (n : ℕ) :
    number (digits ++ List.replicate n '0') = number digits * 10 ^ n := by
  rw [number_append, length_replicate]
  unfold number
  rw [Nat.ofDigitChars_replicate_zero, Nat.mul_zero, Nat.add_zero, Nat.mul_comm]

theorem digit_ne {c d : Char} (hc : c.isDigit = true) (hd : d.isDigit = false) : c ≠ d := by
  rintro rfl
  rw [hc] at hd
  cases hd

theorem splitSign_other {text : Text} (h : ∀ c ∈ text.head?, c ≠ '-' ∧ c ≠ '+') :
    splitSign text = (1, text) := by
  unfold splitSign
  split
  · exact absurd rfl (h '-' rfl).1
  · exact absurd rfl (h '+' rfl).2
  · rfl

theorem splitSign_digits (hne : whole ≠ []) (hwhole : ∀ c ∈ whole, c.isDigit = true)
    (rest : Text) : splitSign (whole ++ rest) = (1, whole ++ rest) := by
  obtain ⟨c, more, rfl⟩ := exists_cons_of_ne_nil hne
  have hc := hwhole c mem_cons_self
  apply splitSign_other
  rintro d ⟨rfl⟩
  exact ⟨digit_ne hc (by decide), digit_ne hc (by decide)⟩

theorem readFraction_other (h : ∀ c ∈ rest.head?, c ≠ '.') : readFraction rest = ([], rest) := by
  unfold readFraction
  split
  · exact absurd rfl (h '.' rfl)
  · rfl

theorem read_natural {e : ℤ} (hne : whole ≠ []) (hwhole : ∀ c ∈ whole, c.isDigit = true)
    (hrest : ∀ c ∈ rest.head?, c.isDigit = false ∧ c ≠ '.') (he : readExponent rest = some e) :
    read (whole ++ rest) = some ⟨number whole, -e⟩ := by
  have hrun := run_append hwhole fun c hc => (hrest c hc).1
  obtain ⟨htake, hdrop⟩ := Prod.mk.inj hrun
  have hfraction := readFraction_other fun c hc => (hrest c hc).2
  simp [read, splitSign_digits hne hwhole, htake, hdrop, hfraction, hne, he, number]

theorem read_fraction {e : ℤ} (hne : whole ≠ []) (hwhole : ∀ c ∈ whole, c.isDigit = true)
    (hfrac : ∀ c ∈ frac, c.isDigit = true) (hrest : ∀ c ∈ rest.head?, c.isDigit = false)
    (he : readExponent rest = some e) :
    read (whole ++ '.' :: (frac ++ rest)) = some ⟨number (whole ++ frac), frac.length - e⟩ := by
  have hpoint : ∀ c ∈ ('.' :: (frac ++ rest)).head?, c.isDigit = false := by
    rintro c ⟨rfl⟩
    decide
  obtain ⟨htake, hdrop⟩ := Prod.mk.inj (run_append hwhole hpoint)
  obtain ⟨hinner, hafter⟩ := Prod.mk.inj (run_append hfrac hrest)
  simp [read, splitSign_digits hne hwhole, htake, hdrop, readFraction, hinner, hafter, hne, he,
    number]

/-- A sign before a numeral negates it. -/
theorem read_signed {text : Text} {n : Numeral} (negative : Bool)
    (hsign : splitSign text = (1, text)) (hread : read text = some n) :
    read (minus negative ++ text) = some (signed negative n) := by
  cases negative with
  | false => exact hread
  | true =>
    simp only [read, hsign, one_mul] at hread
    have hminus : splitSign (minus true ++ text) = (-1, text) := rfl
    simp only [read, hminus]
    split_ifs at hread ⊢ with hnone
    obtain ⟨e, he, rfl⟩ := Option.map_eq_some_iff.mp hread
    simp [he, signed]

theorem readExponent_int {mark : Char} (hmark : mark = 'e' ∨ mark = 'E') (negative : Bool) (n : ℕ) :
    readExponent (mark :: (if negative then '-' else '+') :: natural n) =
      some (if negative then -(n : ℤ) else n) := by
  have hsign : splitSign ((if negative then '-' else '+') :: natural n) =
      (if negative then -1 else 1, natural n) := by cases negative <;> rfl
  have hall : (natural n).all Char.isDigit = true := all_eq_true.mpr (natural_digit n)
  have hvalue : Nat.ofDigitChars 10 (natural n) 0 = n := number_natural n
  rw [readExponent, if_pos hmark, readWhole, hsign]
  dsimp only
  rw [if_pos ⟨natural_ne_nil n, hall⟩, hvalue]
  cases negative <;> simp

theorem read_int (n : ℤ) : read (int n) = some ⟨n, 0⟩ := by
  have hsign := splitSign_digits (natural_ne_nil n.natAbs) (natural_digit n.natAbs) []
  have hread :=
    @read_natural _ [] 0 (natural_ne_nil n.natAbs) (natural_digit n.natAbs) (by simp) rfl
  rw [append_nil] at hsign hread
  rw [number_natural] at hread
  rw [int, read_signed _ hsign hread]
  by_cases hn : n < 0
  · simp only [signed, hn, decide_true, if_true, Option.some.injEq, mk.injEq]
    omega
  · simp only [signed, hn, decide_false, Bool.false_eq_true, if_false, Option.some.injEq, mk.injEq]
    omega

end

/-- The last digits of a number, padded with zeros. -/
def field : ℕ → ℕ → Text
  | 0, _ => []
  | width + 1, n => field width (n / 10) ++ [Nat.digitChar (n % 10)]

/-- A field of a fixed width at the front of a text, and what follows it. -/
def readField (width : ℕ) (text : Text) : Option (ℕ × Text) :=
  if (text.take width).length = width ∧ (text.take width).all Char.isDigit then
    some (number (text.take width), text.drop width)
  else none

@[simp] theorem length_field (width n : ℕ) : (field width n).length = width := by
  induction width generalizing n with
  | zero => rfl
  | succ width ih => simp [field, ih]

theorem digitChar_digit {n : ℕ} (hn : n < 10) : n.digitChar.isDigit = true := by
  interval_cases n <;> decide

theorem field_digit (width n : ℕ) : ∀ c ∈ field width n, c.isDigit = true := by
  induction width generalizing n with
  | zero => simp [field]
  | succ width ih =>
    intro c hc
    simp only [field, mem_append, mem_singleton] at hc
    obtain hc | rfl := hc
    · exact ih _ c hc
    · exact digitChar_digit (Nat.mod_lt n (by decide))

theorem number_field {width n : ℕ} (hn : n < 10 ^ width) : number (field width n) = n := by
  induction width generalizing n with
  | zero =>
    have : n = 0 := by simpa using hn
    rw [this]
    rfl
  | succ width ih =>
    have hquot : n / 10 < 10 ^ width := by
      rw [Nat.div_lt_iff_lt_mul (by decide)]
      rwa [Nat.pow_succ] at hn
    have hlast : number [Nat.digitChar (n % 10)] = n % 10 := by
      have h := @Nat.ofDigitChars_cons_digitChar_of_lt_ten 10 _ (Nat.mod_lt n (by decide)) [] 0
      simpa [number] using h
    rw [field, number_append, ih hquot, hlast]
    simp only [length_singleton, Nat.pow_one]
    omega

theorem readField_field {width n : ℕ} (hn : n < 10 ^ width) (rest : Text) :
    readField width (field width n ++ rest) = some (n, rest) := by
  have htake : (field width n ++ rest).take width = field width n := by
    rw [take_append_of_le_length (by simp), take_of_length_le (by simp)]
  have hdrop : (field width n ++ rest).drop width = rest := by
    rw [drop_append_of_le_length (by simp), drop_of_length_le (by simp), nil_append]
  unfold readField
  rw [htake, hdrop, if_pos ⟨length_field width n, all_eq_true.mpr (field_digit width n)⟩,
    number_field hn]

end Numeral

end DeltaSwamp
