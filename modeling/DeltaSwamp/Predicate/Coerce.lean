import DeltaSwamp.Kleene
import DeltaSwamp.Predicate.Value
import Mathlib.Data.Nat.Log

/-!
# Typing a literal for a column

`_coerce`: how a literal meets a column of a given type. The literal takes the
column's type where that is exact; where it is not, the column is widened.
-/

namespace DeltaSwamp.Predicate

/-- An Arrow scalar that is not NULL: a value of its type. -/
structure Scalar where
  type : Prim
  value : Value
  typed : value.hasType type = true
  deriving DecidableEq

/-- What the builders take from Python's text and number parsers and from Arrow. -/
structure Env where
  /-- `str.lower` -/
  lower : Text → Text
  /-- `str.strip` -/
  strip : Text → Text
  /-- `\d` of a regular expression -/
  digit : Char → Bool
  /-- `decimal.Decimal` of a stripped text, where that is a finite number -/
  decimal : Text → Option Dec
  /-- `_parse_date`: days since the epoch -/
  parseDate : Text → Option ℤ
  /-- `_parse_datetime`: microseconds since the epoch, read as UTC where the text has
  no zone, and the offset in seconds it has otherwise -/
  parseDatetime : Text → Option (ℤ × Option ℤ)
  /-- the double nearest to a number -/
  round : ℚ → Fl
  round_ne_nan : ∀ q, round q ≠ .nan
  /-- Arrow's name for a zone of fixed offset -/
  zoneName : ℤ → Text
  /-- `scalar.cast(type)`, `none` where Arrow raises -/
  cast : Scalar → Prim → Option Scalar
  /-- a column value cast to `string`, `none` where Arrow raises -/
  castText : Prim → Value → Option Text
  /-- `ILIKE`: the text, then the pattern -/
  ilike : Text → Text → Bool
  /-- Whether `pa.array` of a type takes the Python values of some scalars; an error
  where `as_py` raises. -/
  takes : Prim → List Value → Except PredicateError Bool

namespace Literal

def isNumber : Literal → Bool
  | long _ | double _ | decimal _ => true
  | _ => false

def isDouble : Literal → Bool
  | double _ => true
  | _ => false

end Literal

/-- `pa.decimal128` or `pa.decimal256` of that many digits. -/
def decimalOf (digits scale : ℕ) : Prim :=
  if digits ≤ 38 then .decimal 128 digits scale else .decimal 256 digits scale

/-- The digits Arrow gives a decimal. -/
def Dec.digits (d : Dec) : ℕ := max (Nat.log 10 d.unscaled.natAbs + 1) d.scale

def Scalar.ofDouble (x : Fl) : Scalar := ⟨.float64, .float x, rfl⟩

def Scalar.ofText (s : Text) : Scalar := ⟨.text .string, .text s, rfl⟩

/-- Nanoseconds in a microsecond. -/
def microNanos : ℤ := 1000

def scalarOf (lit : Literal) (type : Prim) (value : Value) : Except PredicateError Scalar :=
  if h : value.hasType type = true then .ok ⟨type, value, h⟩ else .error (.noScalar lit)

/-- What a literal becomes: a type the column is cast to, if any, and a scalar, `none` for NULL. -/
abbrev Coerced := Option Prim × Option Scalar

section
variable (env : Env)

/-- `_to_scalar(pa, value)`: the scalar of the type Arrow infers. -/
def toScalar (lit : Literal) : Except PredicateError Scalar :=
  match lit with
  | .null => .error (.noScalar lit)
  | .boolean b => scalarOf lit .boolean (.bool b)
  | .long n => scalarOf lit .int64 (.num n)
  | .double x => scalarOf lit .float64 (.float x)
  | .decimal d =>
    if 76 < d.digits then .error (.noScalar lit)
    else scalarOf lit (decimalOf d.digits d.scale) (.num d.value)
  | .string s => scalarOf lit (.text .string) (.text s)
  | .date days => scalarOf lit .date32 (.time (days * dayNanos))
  | .timestamp us offset =>
    scalarOf lit (.timestamp .us (offset.map env.zoneName)) (.time (us * microNanos))

/-- The wall clock of a parsed timestamp, in microseconds. -/
def wallClock (us : ℤ) (offset : Option ℤ) : ℤ := us + offset.getD 0 * 10 ^ 6

/-- `_string_to_temporal` -/
def stringToTemporal (s : Text) (target : Prim) : Except PredicateError Literal :=
  match target with
  | .timestamp _ tz =>
    match env.parseDatetime s, tz with
    | none, _ => .error (.badString target s)
    | some (us, offset), none => .ok (.timestamp (wallClock us offset) none)
    -- An unzoned string against a zoned column is UTC.
    | some (us, offset), some _ => .ok (.timestamp us (some (offset.getD 0)))
  | _ =>
    match env.parseDate s, env.parseDatetime s with
    | some days, _ => .ok (.date days)
    | none, some (us, offset) => .ok (.date (wallClock us offset / (86400 * 10 ^ 6)))
    | none, none => .error (.badString target s)

/-- `re.fullmatch(r"[+-]?\d+", s)` -/
def isIntegerText (s : Text) : Bool :=
  let digits := match s with
    | '+' :: rest => rest
    | '-' :: rest => rest
    | s => s
  !digits.isEmpty && digits.all env.digit

/-- A string literal against a number or BOOLEAN column: what Arrow casts it to or,
failing that, the number it spells. -/
def stringToNumber (s : Text) (target : Prim) : Except PredicateError (Scalar ⊕ Literal) :=
  match env.cast (.ofText s) target, env.decimal (env.strip s) with
  | some cast, _ => .ok (.inl cast)
  | none, some number =>
    if target = .boolean || (target.isInteger && !isIntegerText env (env.strip s)) then
      .error (.badString target s)
    else .ok (.inr (.decimal number))
  | none, none => .error (.badString target s)

def integerDigits : ℕ → ℕ
  | 8 => 3
  | 16 => 5
  | 32 => 10
  | _ => 20

/-- The digits and the scale of a type, for comparing it as a decimal. -/
def decimalShape : Prim → ℕ × ℕ
  | .int _ bits => (integerDigits bits, 0)
  | .decimal _ precision scale => (precision, scale)
  | _ => (0, 0)

/-- `_common_decimal`: a decimal type for every value of the column and the literal. -/
def commonDecimal (column literal : Prim) : Prim :=
  let (precision, scale) := decimalShape column
  let (litPrecision, litScale) := decimalShape literal
  let scaleOut := max scale litScale
  let digits := max (precision - scale) (litPrecision - litScale) + scaleOut
  if digits ≤ 38 then .decimal 128 digits scaleOut else .decimal 256 (min digits 76) scaleOut

/-- A literal that is cast to the column's type where Arrow can do it. -/
def coercePlain (lit : Literal) (target : Prim) : Except PredicateError Coerced := do
  let scalar ← toScalar env lit
  if scalar.type = target then return (none, some scalar)
  match env.cast scalar target with
  | some cast => return (none, some cast)
  | none =>
    match target with
    | .int _ bits =>
      if scalar.type = .int64 ∧ bits < 64 then return (some .int64, some scalar)
      return (none, some scalar)
    | _ => return (none, some scalar)

/-- A decimal against an integer or decimal column: as the column's type if that is
exact, otherwise both in a decimal wide enough for each. -/
def coerceDecimal (d : Dec) (target : Prim) : Except PredicateError Coerced := do
  let scalar ← toScalar env (.decimal d)
  let wide := commonDecimal target scalar.type
  let widened : Except PredicateError Coerced :=
    match env.cast scalar wide with
    | some cast => .ok (some wide, some cast)
    | none => .error .arrow
  match env.cast scalar target with
  | some cast => if cast.value = .num d.value then return (none, some cast) else widened
  | none => widened

/-- A timestamp against a date or timestamp column: at microseconds where the
column is coarser. -/
def coerceTimestamp (us : ℤ) (offset : Option ℤ) (target : Prim) :
    Except PredicateError Coerced := do
  let lit := Literal.timestamp us offset
  match target with
  | .timestamp _ tz =>
    let scalar ← toScalar env lit
    match env.cast scalar target, env.cast scalar (.timestamp .us tz) with
    | some cast, _ => return (none, some cast)
    | none, some cast => return (some (.timestamp .us tz), some cast)
    | none, none => .error .arrow
  | _ =>
    let wide := .timestamp .us (offset.map fun _ => "UTC".toList)
    let scalar ← scalarOf lit wide (.time (us * microNanos))
    return (some wide, some scalar)

/-- The floats narrower than the DOUBLE they are compared as. -/
def isNarrowFloat (t : Prim) : Bool := t = .float 16 || t = .float 32

/-- The comparison of a literal that is not a string to be parsed with a column. -/
def coerceValue (lit : Literal) (target : Prim) : Except PredicateError Coerced :=
  match lit with
  | .timestamp us offset =>
    if target.isDate || target.isTimestamp then coerceTimestamp env us offset target
    else coercePlain env lit target
  | .double x =>
    if isNarrowFloat target || target.isInteger || target.isDecimal then
      .ok (some .float64, some (.ofDouble x))
    else coercePlain env lit target
  | .long n =>
    if isNarrowFloat target then .ok (some .float64, some (.ofDouble (env.round n)))
    else if target.isDecimal then coerceDecimal env ⟨n, 0⟩ target
    else coercePlain env lit target
  | .decimal d =>
    if isNarrowFloat target then .ok (some .float64, some (.ofDouble (env.round d.value)))
    else if target.isInteger || target.isDecimal then coerceDecimal env d target
    else coercePlain env lit target
  | _ => coercePlain env lit target

/-- A number against text or BOOLEAN, or a boolean against a number: Spark would
raise, or cast every value of the column. -/
def isMismatch (lit : Literal) (target : Prim) : Bool :=
  match lit with
  | .boolean _ => target.isNumeric
  | lit => lit.isNumber && (target.isText || target = .boolean)

/-- `_coerce` -/
def coerce (lit : Literal) (target : Option Ty) : Except PredicateError Coerced :=
  match lit, target with
  | .null, _ => .ok (none, none)
  | lit, none => do return (none, some (← toScalar env lit))
  | lit, some (.struct fields) => .error (.mismatch (.struct fields) lit)
  | lit, some .nested => .error (.mismatch .nested lit)
  | .string s, some (.prim t) =>
    if t.isDate || t.isTimestamp then do coerceValue env (← stringToTemporal env s t) t
    else if t.isNumeric || t = .boolean then do
      match ← stringToNumber env s t with
      | .inl cast => return (none, some cast)
      | .inr lit => coerceValue env lit t
    else coerceValue env (.string s) t
  | lit, some (.prim t) =>
    if isMismatch lit t then .error (.mismatch (.prim t) lit) else coerceValue env lit t

end

/-- What a cast makes of a column value: a double of a number, an instant in the
type's unit; the other widenings keep the value. -/
def castValue (round : ℚ → Fl) : Prim → Value → Value
  | .float _, .num q => .float (round q)
  | .timestamp unit _, .time ns => .time (ns.tdiv unit.nanos * unit.nanos)
  | _, v => v

/-- A column value where the column may have to be cast. -/
def castColumn (round : ℚ → Fl) (cast : Option Prim) (v : Option Value) : Option Value :=
  match cast with
  | none => v
  | some t => v.map (castValue round t)

section
variable (env : Env) (schema : Schema)

/-- A column as the schema spells it, and its type. -/
def resolve (c : Column) : Except PredicateError (List Text × Ty) := do
  match ← resolvePath env.lower schema c.path with
  | some found => return found
  | none => .error (.unknownColumn c.path)

variable (row : Row env.lower schema)

/-- The two values a comparison is about. -/
def operandValues : Operand → Operand → Except PredicateError (Option Value × Option Value)
  | .column a, .column b => do
    let a ← resolve env schema a
    let b ← resolve env schema b
    return (row.get a.1, row.get b.1)
  | .column a, .literal b => do
    let a ← resolve env schema a
    let b ← coerce env b (some a.2)
    return (castColumn env.round b.1 (row.get a.1), b.2.map Scalar.value)
  | .literal a, .column b => do
    let b ← resolve env schema b
    let a ← coerce env a (some b.2)
    return (a.2.map Scalar.value, castColumn env.round a.1 (row.get b.1))
  | .literal a, .literal b => do
    let a ← coerce env a none
    let b ← coerce env b none
    return (a.2.map Scalar.value, b.2.map Scalar.value)

/-- Two values compared: NULL where one of them is, or where they have no order. -/
def compareValues (op : CmpOp) : Option Value → Option Value → Truth
  | some v, some w => (v.sqlOrder env.round w).map op.holds
  | _, _ => none

def compareTruth (op : CmpOp) (left right : Operand) : Truth :=
  match operandValues env schema row left right with
  | .ok (a, b) => compareValues env op a b
  | .error _ => none

/-- The value an operand has on its own. -/
def operandValue : Operand → Option Value
  | .column c =>
    match resolve env schema c with
    | .ok c => row.get c.1
    | .error _ => none
  | .literal l =>
    match coerce env l none with
    | .ok (_, s) => s.map Scalar.value
    | .error _ => none

/-- The text that LIKE reads: a column of another type is cast to text. -/
def textTruth (target : Operand) : Option Text :=
  match target, operandValue env schema row target with
  | _, some (.text s) => some s
  | .column c, some v =>
    match resolve env schema c with
    | .ok (_, .prim t) => env.castText t v
    | _ => none
  | _, _ => none

def negate (negated : Bool) (v : Truth) : Truth := if negated then v.not else v

/-- Never unknown: NULLs are equal to each other and to nothing else. -/
def eqNullSafeTruth (left right : Operand) : Truth :=
  match operandValues env schema row left right with
  | .ok (v, w) => some ((v.isNone && w.isNone) || compareValues env .eq v w = some true)
  | .error _ => none

def leafTruth : Leaf → Truth
  | .true => some true
  | .false => some false
  | .column c =>
    match operandValue env schema row (.column c) with
    | some (.bool b) => some b
    | _ => none
  | .compare op left right => compareTruth env schema row op left right
  | .eqNullSafe left right => eqNullSafeTruth env schema row left right
  | .isNull target => some (operandValue env schema row target).isNone
  | .isNotNull target => some (operandValue env schema row target).isSome
  | .inList target items negated =>
    negate negated (if items = [] then none
      else Truth.any (items.map (compareTruth env schema row .eq target)))
  | .between target low high negated =>
    negate negated ((compareTruth env schema row .ge target low).and
      (compareTruth env schema row .le target high))
  | .like target pattern negated =>
    negate negated ((textTruth env schema row target).map (like · pattern))
  | .ilike target pattern negated =>
    negate negated ((textTruth env schema row target).map (env.ilike · pattern))

def truth : Node → Truth
  | .leaf l => leafTruth env schema row l
  | .and args => Truth.all (args.map truth)
  | .or args => Truth.any (args.map truth)
  | .not arg => (truth arg).not

end

end DeltaSwamp.Predicate
