import Mathlib.Algebra.Order.BigOperators.Group.Finset
import Mathlib.Data.Char
import Mathlib.Data.Finset.Lattice.Fold
import Mathlib.Data.List.Lex
import Mathlib.Data.List.Sort
import Mathlib.Data.Rat.Floor
import Mathlib.Order.Interval.Finset.Nat

/-!
# Text

Text as the list of its characters, with the searches a program makes in it:
containment, what follows the first occurrence of a word, digits, and whole
numbers.
-/

namespace DeltaSwamp

abbrev Text := List Char

abbrev Version := Nat

instance : LawfulBEq Text := inferInstance

/-- Decided over the characters of a text, not over every character there is. -/
instance (priority := high) decidableForallMem {p : Char → Prop} [DecidablePred p]
    (text : List Char) : Decidable (∀ c ∈ text, p c) := List.decidableBAll p text

instance (priority := high) decidableExistsMem {p : Char → Prop} [DecidablePred p]
    (text : List Char) : Decidable (∃ c ∈ text, p c) := List.decidableBEx p text

namespace Text

def contains (text needle : Text) : Bool := decide (needle <:+: text)

/-- What follows the first occurrence of `needle`. -/
def after (needle : Text) : Text → Option Text
  | [] => if needle = [] then some [] else none
  | c :: rest =>
    if needle.isPrefixOf (c :: rest) then some ((c :: rest).drop needle.length)
    else after needle rest

def isAsciiDigit (c : Char) : Bool := '0' ≤ c && c ≤ '9'

def isAsciiAlphanumeric (c : Char) : Bool :=
  isAsciiDigit c || ('a' ≤ c && c ≤ 'z') || ('A' ≤ c && c ≤ 'Z')

def digitValue (c : Char) : Nat := c.toNat - '0'.toNat

/-- The number a run of decimal digits spells. -/
def toNat (digits : Text) : Nat := digits.foldl (fun n c => 10 * n + digitValue c) 0

/-- `code` somewhere in `text` with no letter or digit on either side;
`before` is the character to the left of `text`. -/
def wholeWord (code : Text) (before : Option Char) : Text → Bool
  | [] => false
  | c :: rest =>
    (code.isPrefixOf (c :: rest) && !before.any isAsciiAlphanumeric &&
      !((c :: rest).drop code.length).head?.any isAsciiAlphanumeric) ||
    wholeWord code (some c) rest

/-- `text` lower-cased one character at a time: a character may become several. -/
def lower (lowerChar : Char → Text) (text : Text) : Text := text.flatMap lowerChar

section
variable {c : Char}

theorem isUpper_iff : c.isUpper = true ↔ 65 ≤ c.toNat ∧ c.toNat ≤ 90 := by
  have hupper : c.isUpper = decide (65 ≤ c.val ∧ c.val ≤ 90) := rfl
  rw [hupper, decide_eq_true_eq]
  exact Iff.rfl

theorem isLower_iff : c.isLower = true ↔ 97 ≤ c.toNat ∧ c.toNat ≤ 122 := by
  have hlower : c.isLower = (decide (97 ≤ c.val) && decide (c.val ≤ 122)) := rfl
  rw [hlower, Bool.and_eq_true, decide_eq_true_eq, decide_eq_true_eq]
  exact Iff.rfl

theorem isAlpha_iff : c.isAlpha = true ↔
    (65 ≤ c.toNat ∧ c.toNat ≤ 90) ∨ (97 ≤ c.toNat ∧ c.toNat ≤ 122) := by
  have halpha : c.isAlpha = (c.isUpper || c.isLower) := rfl
  rw [halpha, Bool.or_eq_true, isUpper_iff, isLower_iff]

theorem isAlpha_of_isLower (h : c.isLower = true) : c.isAlpha = true :=
  isAlpha_iff.mpr (.inr (isLower_iff.mp h))

theorem isDigit_iff : c.isDigit = true ↔ 48 ≤ c.toNat ∧ c.toNat ≤ 57 := by
  have hdigit : c.isDigit = (decide (48 ≤ c.val) && decide (c.val ≤ 57)) := rfl
  rw [hdigit, Bool.and_eq_true, decide_eq_true_eq, decide_eq_true_eq]
  exact Iff.rfl

theorem isDigit_of_isAlpha (h : c.isAlpha = true) : c.isDigit = false := by
  rw [← Bool.not_eq_true, isDigit_iff]
  have hrange := isAlpha_iff.mp h
  omega

end

end Text

theorem toNat_toLower (c : Char) :
    c.toLower.toNat = if 65 ≤ c.toNat ∧ c.toNat ≤ 90 then c.toNat + 32 else c.toNat := by
  delta Char.toLower
  simp only [ge_iff_le, UInt32.le_iff_toNat_le]
  change Char.toNat (if h : 65 ≤ c.toNat ∧ c.toNat ≤ 90 then _ else _) = _
  split
  · rename_i h
    change (c.val + 32).toNat = _
    rw [UInt32.toNat_add]
    change (c.toNat + 32) % 2 ^ 32 = _
    omega
  · rfl

theorem toLower_eq_iff {c d : Char} (hd : d.toNat < 65) : c.toLower = d ↔ c = d := by
  have hlower := toNat_toLower c
  constructor
  · rintro rfl
    apply Char.toNat_inj.mp
    split_ifs at hlower <;> omega
  · rintro rfl
    apply Char.toNat_inj.mp
    split_ifs at hlower <;> omega

theorem toLower_toLower (c : Char) : c.toLower.toLower = c.toLower := by
  apply Char.toNat_inj.mp
  rw [toNat_toLower c.toLower, toNat_toLower c]
  split_ifs <;> omega

end DeltaSwamp
