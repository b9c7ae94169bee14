import DeltaSwamp.Result
import DeltaSwamp.Rounding
import DeltaSwamp.Text
import Mathlib.Algebra.Order.Field.Power
import Mathlib.Data.Int.Log
import Mathlib.Tactic.FieldSimp
import Mathlib.Tactic.Positivity

/-!
# Lossless casts

`lossless_cast` of `partition.rs`, over Arrow's strict cast: what each value of a
type denotes, and which values a type can hold.
-/

namespace DeltaSwamp.Arrow

inductive TextKind where
  | utf8
  | largeUtf8
  | utf8View
  deriving DecidableEq

inductive FloatFormat where
  | half
  | single
  | double
  deriving DecidableEq

inductive TimeUnit where
  | second
  | millisecond
  | microsecond
  | nanosecond
  deriving DecidableEq

/-- The types of arrays that hold their values themselves. -/
inductive Plain where
  | text (kind : TextKind)
  | boolean
  | int (signed : Bool) (bits : Nat)
  | float (format : FloatFormat)
  | decimal (precision : Nat) (scale : Int)
  | date32
  | date64
  | timestamp (unit : TimeUnit) (zone : Option Text)
  | other (name : Text)
  deriving DecidableEq

/-- A type, plain or dictionary-encoded. -/
inductive ArrowType where
  | plain (type : Plain)
  | dictionary (key : Text) (value : Plain)
  deriving DecidableEq

def ArrowType.logical : ArrowType → Plain
  | .plain type => type
  | .dictionary _ value => value

/-- A stored float: `fin 0` is `0.0`, and any other finite one the number it stands for. -/
inductive FloatValue where
  | nan (bits : Nat)
  | negInf
  | posInf
  | negZero
  | fin (x : ℚ)
  deriving DecidableEq

/-- A stored value. -/
inductive Raw where
  | bool (b : Bool)
  | int (n : Int)
  | float (x : FloatValue)
  | text (t : Text)
  | bytes (b : List UInt8)
  deriving DecidableEq

/-- A number, a wall-clock date or time, an instant (both in nanoseconds from the epoch). -/
inductive Denoted where
  | number (x : ℚ)
  | infinity (negative : Bool)
  | notANumber
  | wallTime (ns : Int)
  | instant (ns : Int)
  | unread (type : Plain) (raw : Raw)
  deriving DecidableEq

def Denoted.isFinite : Denoted → Bool
  | .infinity _ | .notANumber => false
  | _ => true

def TimeUnit.ns : TimeUnit → Int
  | .second => 10 ^ 9
  | .millisecond => 10 ^ 6
  | .microsecond => 10 ^ 3
  | .nanosecond => 1

def denoteFloat : FloatValue → Denoted
  | .nan _ => .notANumber
  | .negInf => .infinity true
  | .posInf => .infinity false
  | .negZero => .number 0
  | .fin x => .number x

def denote : Plain → Raw → Denoted
  | .boolean, .bool b => .number (if b then 1 else 0)
  | .int _ _, .int n => .number n
  | .float _, .float x => denoteFloat x
  | .decimal _ scale, .int n => .number (n / 10 ^ scale)
  | .date32, .int n => .wallTime (n * (86400 * 10 ^ 9))
  | .date64, .int n => .wallTime (n * 10 ^ 6)
  | .timestamp unit none, .int n => .wallTime (n * unit.ns)
  | .timestamp unit (some _), .int n => .instant (n * unit.ns)
  | type, raw => .unread type raw

/-- The bits of a significand, and the least and greatest exponent of its last bit. -/
def FloatFormat.precision : FloatFormat → Nat
  | .half => 11
  | .single => 24
  | .double => 53

def FloatFormat.least : FloatFormat → Int
  | .half => -24
  | .single => -149
  | .double => -1074

def FloatFormat.greatest : FloatFormat → Int
  | .half => 5
  | .single => 104
  | .double => 971

def FloatFormat.Holds (format : FloatFormat) (x : ℚ) : Prop :=
  ∃ m e : Int, |m| < 2 ^ format.precision ∧ format.least ≤ e ∧ e ≤ format.greatest ∧
    x = m * 2 ^ e

/-- Where rounding to nearest overflows to infinity. -/
def FloatFormat.limit (format : FloatFormat) : ℚ :=
  (2 ^ format.precision - 1 / 2) * 2 ^ format.greatest

/-- `raw` is a value of the type. -/
def Plain.Holds : Plain → Raw → Prop
  | .boolean, .bool _ => True
  | .int true bits, .int n => -2 ^ (bits - 1) ≤ n ∧ n < 2 ^ (bits - 1)
  | .int false bits, .int n => 0 ≤ n ∧ n < 2 ^ bits
  | .float format, .float (.fin x) => format.Holds x
  | .float _, .float _ => True
  | .decimal precision _, .int n => |n| < 10 ^ precision
  | .date32, .int n => -2 ^ 31 ≤ n ∧ n < 2 ^ 31
  | .date64, .int n => -2 ^ 63 ≤ n ∧ n < 2 ^ 63
  | .timestamp _ _, .int n => -2 ^ 63 ≤ n ∧ n < 2 ^ 63
  | .text _, .text _ => True
  | .other _, _ => True
  | _, _ => False

def Plain.isText : Plain → Bool
  | .text _ => true
  | _ => false

def Plain.isFloat : Plain → Bool
  | .float _ => true
  | _ => false

/-- An array of values, with NULL where there is none. A dictionary's keys index its values. -/
inductive Leaf where
  | plain (type : Plain) (slots : List (Option Raw))
  | dictionary (key : Text) (value : Plain) (keys : List (Option Nat)) (values : List (Option Raw))
  deriving DecidableEq

def taken (values : List (Option Raw)) (key : Option Nat) : Option Raw :=
  key.bind fun k => (values[k]?).join

namespace Leaf

def type : Leaf → ArrowType
  | .plain type _ => .plain type
  | .dictionary key value _ _ => .dictionary key value

/-- The values row by row. -/
def logical : Leaf → List (Option Raw)
  | .plain _ slots => slots
  | .dictionary _ _ keys values => keys.map (taken values)

/-- `null_count`, for a dictionary the NULLs among its keys. -/
def nullCount : Leaf → Nat
  | .plain _ slots => slots.countP Option.isNone
  | .dictionary _ _ keys _ => keys.countP Option.isNone

/-- Every value is one of the type. -/
def Valid : Leaf → Prop
  | .plain type slots => ∀ v, some v ∈ slots → type.Holds v
  | .dictionary _ type _ values => ∀ v, some v ∈ values → type.Holds v

end Leaf

/-- What Arrow casts with. -/
structure Casts where
  /-- one value, in strict mode -/
  cast : Plain → Plain → Raw → Except Text Raw
  cast_holds : ∀ source target v w, cast source target v = .ok w → target.Holds w
  /-- the values as a dictionary -/
  pack : Text → List (Option Raw) → Except Text (List (Option Nat) × List (Option Raw))
  pack_taken : ∀ key slots keys values, pack key slots = .ok (keys, values) →
    keys.map (taken values) = slots
  /-- a dictionary's keys in another key type -/
  rekey : Text → List (Option Nat) → Except Text Unit

inductive CastError where
  /-- Arrow's own error. -/
  | cast (message : Text)
  /-- The conversion would turn some values into NULL. -/
  | newNulls
  /-- Converting would overflow some values to infinity. -/
  | overflows (source target : ArrowType)
  /-- Converting would change some values (lost precision or range). -/
  | changes (source target : ArrowType)
  deriving DecidableEq

section
variable (lib : Casts)

def castSlot (source target : Plain) : Option Raw → Except Text (Option Raw)
  | none => .ok none
  | some v => (lib.cast source target v).map some

/-- `cast_with_options` in strict mode: a dictionary's values are cast. -/
def castArray : Leaf → ArrowType → Except Text Leaf
  | .plain source slots, .plain target => do
    return .plain target (← slots.mapM (castSlot lib source target))
  | .plain source slots, .dictionary key target => do
    let (keys, values) ← lib.pack key (← slots.mapM (castSlot lib source target))
    return .dictionary key target keys values
  | .dictionary _ source keys values, .plain target => do
    let values ← values.mapM (castSlot lib source target)
    return .plain target (keys.map (taken values))
  | .dictionary _ source keys values, .dictionary key target => do
    let values ← values.mapM (castSlot lib source target)
    lib.rekey key keys
    return .dictionary key target keys values

/-- Text, for the conversion checks: not a dictionary of text. -/
def ArrowType.isTextual : ArrowType → Bool
  | .plain type => type.isText
  | .dictionary _ _ => false

def ArrowType.isFloating : ArrowType → Bool
  | .plain type => type.isFloat
  | .dictionary _ _ => false

def ArrowType.isDictionary : ArrowType → Bool
  | .plain _ => false
  | .dictionary _ _ => true

/-- `non_finite_count`, of a float array -/
def nonFiniteCount (array : Leaf) : Nat :=
  array.logical.countP fun slot =>
    slot.any fun v => !(denote array.type.logical v).isFinite

/-- `lossless_cast` -/
def losslessCast (array : Leaf) (target : ArrowType) : Except CastError Leaf :=
  if array.type = target then .ok array
  else
    match castArray lib array target with
    | .error message => .error (.cast message)
    | .ok cast =>
      let source := array.type
      let exempt := source.isTextual || source.isDictionary || target.isTextual
      if cast.nullCount ≠ array.nullCount then .error .newNulls
      else if source.isFloating && target.isFloating then
        if nonFiniteCount cast ≠ nonFiniteCount array then .error (.overflows source target)
        else .ok cast
      else if exempt then .ok cast
      else
        match castArray lib cast source with
        | .error message => .error (.cast message)
        | .ok back => if back = array then .ok cast else .error (.changes source target)

end

namespace FloatFormat

variable {format : FloatFormat} {x : ℚ}

/-- The exponent of the last bit kept of a number. -/
def lastBit (format : FloatFormat) (x : ℚ) : Int :=
  max format.least (Int.log 2 |x| - (format.precision - 1))

def nearest (format : FloatFormat) (x : ℚ) : Denoted :=
  if format.limit ≤ |x| then .infinity (decide (x < 0))
  else .number (Rounding.tiesToEven (x / 2 ^ format.lastBit x) * 2 ^ format.lastBit x)

theorem lt_limit (h : format.Holds x) : |x| < format.limit := by
  obtain ⟨m, e, hm, -, hgreatest, rfl⟩ := h
  have hpower : (2 : ℚ) ^ e ≤ 2 ^ format.greatest :=
    zpow_le_zpow_right₀ (by norm_num) hgreatest
  have hm' : |(m : ℚ)| ≤ 2 ^ format.precision - 1 := by
    have hle : |m| ≤ 2 ^ format.precision - 1 := by omega
    exact_mod_cast hle
  have hpos : (0 : ℚ) < 2 ^ format.greatest := by positivity
  rw [abs_mul, abs_of_pos (by positivity : (0 : ℚ) < 2 ^ e), limit]
  calc |(m : ℚ)| * 2 ^ e ≤ |(m : ℚ)| * 2 ^ format.greatest :=
        mul_le_mul_of_nonneg_left hpower (abs_nonneg _)
    _ ≤ (2 ^ format.precision - 1) * 2 ^ format.greatest :=
        mul_le_mul_of_nonneg_right hm' hpos.le
    _ < (2 ^ format.precision - 1 / 2) * 2 ^ format.greatest :=
        mul_lt_mul_of_pos_right (by linarith) hpos

theorem lastBit_le {m e : Int} (hm : |m| < 2 ^ format.precision) (hleast : format.least ≤ e)
    (hne : m ≠ 0) : format.lastBit (m * 2 ^ e) ≤ e := by
  have hpos : 0 < |(m : ℚ) * 2 ^ e| := by positivity
  have hlt : |(m : ℚ) * 2 ^ e| < ((2 : ℕ) : ℚ) ^ ((format.precision : Int) + e) := by
    rw [abs_mul, abs_of_pos (by positivity : (0 : ℚ) < 2 ^ e), Nat.cast_ofNat,
      zpow_add₀ (by norm_num), zpow_natCast]
    apply mul_lt_mul_of_pos_right _ (by positivity)
    exact_mod_cast hm
  have hlog := (Int.lt_zpow_iff_log_lt (by norm_num) hpos).mp hlt
  rw [lastBit, max_le_iff]
  exact ⟨hleast, by omega⟩

/-- A number the format holds is its own nearest. -/
theorem nearest_of_holds (h : format.Holds x) : format.nearest x = .number x := by
  rw [nearest, if_neg (not_le.mpr (lt_limit h))]
  obtain ⟨m, e, hm, hleast, -, rfl⟩ := h
  by_cases hne : m = 0
  · subst hne
    have hzero := Rounding.tiesToEven_intCast 0
    rw [Int.cast_zero] at hzero
    simp [hzero]
  · obtain ⟨k, hk⟩ := Int.le.dest (lastBit_le hm hleast hne)
    generalize format.lastBit (m * 2 ^ e) = c at hk ⊢
    subst hk
    have hwhole : (m : ℚ) * 2 ^ (c + k) / 2 ^ c = ((m * 2 ^ k : Int) : ℚ) := by
      rw [zpow_add₀ (by norm_num), zpow_natCast]
      push_cast
      field_simp
    rw [hwhole, Rounding.tiesToEven_intCast, ← hwhole, div_mul_cancel₀]
    positivity

end FloatFormat

end DeltaSwamp.Arrow
