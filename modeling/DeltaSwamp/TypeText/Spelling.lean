import DeltaSwamp.Bracketed
import DeltaSwamp.Dialect.Tokens
import DeltaSwamp.Doubled
import DeltaSwamp.Metadata.Merge
import DeltaSwamp.Storage.Merge

/-!
# Types as SQL text

`sql_type_to_delta` and `_split_top` of `engine/metadata.py`, `arrow_to_sql`, `quote`
and `sql_type` of `engine/sql_text.py`: a type is written as SQL text, and read back.
-/

namespace DeltaSwamp.TypeText

open Metadata (DataType Field ArrowType ArrowField primitiveTypes decimalType)
open Storage (isSpace strip)

/-- Letter case and digits. -/
structure Unicode where
  /-- `str.lower` -/
  lower : Text → Text
  /-- `\d`, with the value `int` reads in it -/
  digit : Char → Option Nat
  /-- What stands behind ASCII text does not change its lower case. -/
  lower_ascii : ∀ first last : Text, (∀ c ∈ first, c.toNat < 128) →
    ∃ rest, lower (first ++ last) = first.map Char.toLower ++ rest ∧ (last = [] → rest = [])
  digit_ascii : ∀ c : Char, c.toNat < 128 →
    digit c = if c.isDigit then some (Text.digitValue c) else none

/-- `str.partition`: what stands before the first separator, and after it where there is one. -/
def partition (sep : Char) (text : Text) : Text × Option Text :=
  match text.dropWhile (· ≠ sep) with
  | [] => (text, none)
  | _ :: rest => (text.takeWhile (· ≠ sep), some rest)

/-- How a bracket changes the depth. -/
def bracket (c : Char) : Int :=
  if c = '<' ∨ c = '(' then 1 else if c = '>' ∨ c = ')' then -1 else 0

/-- `_split_top` -/
def splitTop (text : Text) (sep : Char) : List Text := (Bracketed.split bracket sep text).map strip

/-- `str.strip` of backquotes. -/
def stripTicks (text : Text) : Text :=
  ((text.dropWhile (· = '`')).reverse.dropWhile (· = '`')).reverse

inductive Kind
  | array | map | struct
  deriving DecidableEq, Repr

/-- Whether a text begins with a kind's name and `<`. -/
def opens (name lowered : Text) : Bool :=
  name.isPrefixOf lowered && ((lowered.drop name.length).dropWhile isSpace).head? == some '<'

def kindOf (lowered : Text) : Option Kind :=
  if opens ['a', 'r', 'r', 'a', 'y'] lowered then some .array
  else if opens ['m', 'a', 'p'] lowered then some .map
  else if opens ['s', 't', 'r', 'u', 'c', 't'] lowered then some .struct
  else none

/-- `_TYPE_NAME_ALIASES` -/
def typeNameAliases : List (String × String) :=
  [("int", "integer"), ("bigint", "long"), ("smallint", "short"), ("tinyint", "byte"),
    ("real", "float"), ("numeric", "decimal"), ("dec", "decimal"), ("bool", "boolean"),
    ("varchar", "string"), ("char", "string"), ("text", "string"), ("int64", "long"),
    ("int32", "integer"), ("int16", "short"), ("int8", "byte"), ("float32", "float"),
    ("float64", "double"), ("utf8", "string"), ("large_string", "string"),
    ("timestampntz", "timestamp_ntz"), ("date32", "date")]

def aliased (head : String) : String := (typeNameAliases.lookup head).getD head

/-- `ValueError`, with the text it names. -/
inductive NotAType
  | unbalanced (raw : Text)
  | mapTypes (raw : Text)
  | member (raw member : Text)
  | notDecimal (raw : Text)
  | decimalRange (raw : Text)
  | notType (raw : Text)
  | tooDeep (raw : Text)
  deriving DecidableEq, Repr

section
variable (unicode : Unicode)

/-- A run of digits, as a number after the ones before it, and what follows. -/
def readDigits (value : Nat) : Text → Nat × Text
  | [] => (value, [])
  | c :: rest =>
    match unicode.digit c with
    | some d => readDigits (10 * value + d) rest
    | none => (value, c :: rest)

/-- `\d+` -/
def readNumber : Text → Option (Nat × Text)
  | [] => none
  | c :: rest => (unicode.digit c).map fun d => readDigits unicode d rest

/-- `re.fullmatch(r"(\d+)(?:,(\d+))?\)", args)` -/
def decimalArgs (args : Text) : Option (Nat × Nat) := do
  let (precision, rest) ← readNumber unicode args
  match rest with
  | [')'] => some (precision, 0)
  | ',' :: rest =>
    let (scale, rest) ← readNumber unicode rest
    if rest = [')'] then some (precision, scale) else none
  | _ => none

def decimalFrom (raw args : Text) : Except NotAType DataType :=
  match decimalArgs unicode args with
  | none => .error (.notDecimal raw)
  | some (precision, scale) =>
    if 0 < precision ∧ precision ≤ 38 ∧ scale ≤ precision then
      .ok (.primitive (decimalType precision scale))
    else .error (.decimalRange raw)

/-- A type that is not an array, a map or a struct. -/
def scalar (raw lowered : Text) : Except NotAType DataType :=
  let read := partition '(' (lowered.filter (· ≠ ' '))
  let head := aliased (String.ofList read.1)
  if head = "decimal" then
    match read.2 with
    | none => .ok (.primitive "decimal(10,0)")
    | some args => decimalFrom unicode raw args
  else if read.2.isSome ∧ head = "string" then .ok (.primitive "string")
  else if read.2 = none ∧ head ∈ primitiveTypes then .ok (.primitive head)
  else .error (.notType raw)

/-- A struct's member: its name, and the text of its type. -/
def memberOf (raw member : Text) : Except NotAType (Text × Text) :=
  let read :=
    match partition ':' member with
    | (name, some type) => (name, type)
    | (_, none) => ((partition ' ' member).1, (partition ' ' member).2.getD [])
  let name := stripTicks (strip read.1)
  if name = [] ∨ strip read.2 = [] then .error (.member raw member) else .ok (name, read.2)

/-- What stands inside the outermost `<` and `>` of a kind. -/
def inside (read : Text → Except NotAType DataType) (raw : Text) (kind : Kind) (inner : Text) :
    Except NotAType DataType :=
  match kind with
  | .array => (read inner).map fun element => .array element true
  | .map =>
    match splitTop inner ',' with
    | [key, value] =>
      (read key).bind fun key => (read value).map fun value => .map key value true
    | _ => .error (.mapTypes raw)
  | .struct =>
    ((splitTop inner ',').mapM fun member =>
      (memberOf raw member).bind fun found =>
        (read found.2).map fun type =>
          (⟨String.ofList found.1, type, true, []⟩ : Field)).map .struct

/-- `sql_type_to_delta`; each turn reads a shorter text. -/
def sqlTypeFrom : Nat → Text → Except NotAType DataType
  | 0, raw => .error (.tooDeep raw)
  | turns + 1, raw =>
    let text := strip raw
    let lowered := unicode.lower text
    match kindOf lowered with
    | none => scalar unicode raw lowered
    | some kind =>
      let inner := (text.dropWhile (· ≠ '<')).tail
      if inner.getLast? ≠ some '>' then .error (.unbalanced raw)
      else inside (sqlTypeFrom turns) raw kind (strip inner.dropLast)

def sqlTypeToDelta (text : Text) : Except NotAType DataType :=
  sqlTypeFrom unicode (text.length + 1) text

end

/-- `quote` -/
def quote (identifier : Text) : Text := '`' :: Doubled.double '`' identifier ++ ['`']

/-- `UnreachableTableError`, of a type SQL has none for. -/
inductive NoSqlType
  | precision (type : Int)
  | noSqlType (name : String)
  deriving DecidableEq, Repr

/-- The Arrow types that are written as a wider or an equal one, by their names. -/
def otherTypes : List (String × String) :=
  [("uint8", "SMALLINT"), ("uint16", "INT"), ("uint32", "BIGINT"), ("uint64", "DECIMAL(20,0)"),
    ("halffloat", "FLOAT"), ("null", "VOID")]

def notNull (nullable : Bool) : Text :=
  if nullable then [] else [' ', 'N', 'O', 'T', ' ', 'N', 'U', 'L', 'L']

mutual

/-- `arrow_to_sql` -/
def arrowToSql : ArrowType → Except NoSqlType Text
  | .boolean => .ok ['B', 'O', 'O', 'L', 'E', 'A', 'N']
  | .int8 => .ok ['T', 'I', 'N', 'Y', 'I', 'N', 'T']
  | .int16 => .ok ['S', 'M', 'A', 'L', 'L', 'I', 'N', 'T']
  | .int32 => .ok ['I', 'N', 'T']
  | .int64 => .ok ['B', 'I', 'G', 'I', 'N', 'T']
  | .float32 => .ok ['F', 'L', 'O', 'A', 'T']
  | .float64 => .ok ['D', 'O', 'U', 'B', 'L', 'E']
  | .decimal precision scale =>
    if 38 < precision then .error (.precision precision)
    else .ok (['D', 'E', 'C', 'I', 'M', 'A', 'L', '('] ++ (toString precision).toList ++ ',' ::
      (toString scale).toList ++ [')'])
  | .string => .ok ['S', 'T', 'R', 'I', 'N', 'G']
  | .binary => .ok ['B', 'I', 'N', 'A', 'R', 'Y']
  | .date => .ok ['D', 'A', 'T', 'E']
  | .timestamp true => .ok ['T', 'I', 'M', 'E', 'S', 'T', 'A', 'M', 'P']
  | .timestamp false => .ok ['T', 'I', 'M', 'E', 'S', 'T', 'A', 'M', 'P', '_', 'N', 'T', 'Z']
  | .dictionary value => arrowToSql value
  | .list kind value _ =>
    if kind = .list ∨ kind = .largeList ∨ kind = .fixedSizeList then
      (arrowToSql value).map fun value => ['A', 'R', 'R', 'A', 'Y', '<'] ++ value ++ ['>']
    else .error (.noSqlType "list_view")
  | .map key item _ =>
    (arrowToSql key).bind fun key =>
      (arrowToSql item).map fun item => ['M', 'A', 'P', '<'] ++ key ++ [',', ' '] ++ item ++ ['>']
  | .struct fields =>
    (membersToSql fields).map fun members =>
      ['S', 'T', 'R', 'U', 'C', 'T', '<'] ++ Bracketed.joined ',' [' '] members ++ ['>']
  | .other name =>
    match otherTypes.lookup name with
    | some type => .ok type.toList
    | none => .error (.noSqlType name)

def membersToSql : List ArrowField → Except NoSqlType (List Text)
  | [] => .ok []
  | ⟨name, type, nullable, _⟩ :: fields =>
    (arrowToSql type).bind fun type =>
      (membersToSql fields).map fun members =>
        (quote name.toList ++ [':', ' '] ++ type ++ notNull nullable) :: members

end

/-- `_QUOTED_IDENTIFIER.sub("q", text)`; each turn takes a character. -/
def unquotedFrom : Nat → Text → Text
  | turns + 1, c :: rest =>
    match Dialect.quotedName (c :: rest) with
    | some read => 'q' :: unquotedFrom turns read.2
    | none => c :: unquotedFrom turns rest
  | _, text => text

def sqlTypeChar (c : Char) : Bool :=
  Text.isAsciiAlphanumeric c || c ∈ ['_', ' ', ',', ':', '(', ')', '<', '>']

/-- `_SQL_TYPE`, whose end may stand before a last line feed. -/
def matchesSqlType (text : Text) : Bool :=
  let body := if text.getLast? = some '\n' then text.dropLast else text
  body ≠ [] && body.all sqlTypeChar

/-- `sql_type`: the text, or nothing where it is refused. -/
def sqlType (typeText : Text) : Option Text :=
  let text := strip typeText
  if text = [] ∨ matchesSqlType (unquotedFrom text.length text) = false then none else some text

inductive Primitive
  | boolean | byte | short | integer | long | float | double | string | binary | date | timestamp
  | timestampNtz
  deriving DecidableEq, Repr

/-- A struct's field, whose name is not empty. -/
structure SqlFieldOf (α : Type) where
  name : Text
  named : name ≠ []
  type : α

/-- The Delta types both functions know, nullable throughout, with decimals in range. -/
inductive SqlType
  | primitive (name : Primitive)
  | decimal (precision scale : Nat) (range : 0 < precision ∧ precision ≤ 38 ∧ scale ≤ precision)
  | array (element : SqlType)
  | map (key value : SqlType)
  | struct (fields : List (SqlFieldOf SqlType))

abbrev SqlField := SqlFieldOf SqlType

theorem SqlType.induct {P : SqlType → Prop} {Q : List SqlField → Prop}
    (primitive : ∀ name, P (.primitive name)) (decimal : ∀ p s range, P (.decimal p s range))
    (array : ∀ element, P element → P (.array element))
    (map : ∀ key value, P key → P value → P (.map key value))
    (struct : ∀ fields, Q fields → P (.struct fields)) (nil : Q [])
    (cons : ∀ (f : SqlField) fs, P f.type → Q fs → Q (f :: fs)) : ∀ t, P t :=
  fun t => SqlType.rec (motive_1 := P) (motive_2 := Q) (motive_3 := fun f => P f.type) primitive
    decimal array map struct nil (fun f fs => cons f fs) (fun _ _ _ h => h) t

def Primitive.deltaName : Primitive → String
  | .boolean => "boolean"
  | .byte => "byte"
  | .short => "short"
  | .integer => "integer"
  | .long => "long"
  | .float => "float"
  | .double => "double"
  | .string => "string"
  | .binary => "binary"
  | .date => "date"
  | .timestamp => "timestamp"
  | .timestampNtz => "timestamp_ntz"

def Primitive.arrowType : Primitive → ArrowType
  | .boolean => .boolean
  | .byte => .int8
  | .short => .int16
  | .integer => .int32
  | .long => .int64
  | .float => .float32
  | .double => .float64
  | .string => .string
  | .binary => .binary
  | .date => .date
  | .timestamp => .timestamp true
  | .timestampNtz => .timestamp false

mutual

/-- The type as Delta schema JSON. -/
def SqlType.delta : SqlType → DataType
  | .primitive name => .primitive name.deltaName
  | .decimal precision scale _ => .primitive (decimalType precision scale)
  | .array element => .array element.delta true
  | .map key value => .map key.delta value.delta true
  | .struct fields => .struct (deltaFields fields)

def deltaFields : List SqlField → List Field
  | [] => []
  | ⟨name, _, type⟩ :: fields => ⟨String.ofList name, type.delta, true, []⟩ :: deltaFields fields

end

attribute [simp] SqlType.delta

mutual

/-- The type's Arrow type. -/
def SqlType.arrow : SqlType → ArrowType
  | .primitive name => name.arrowType
  | .decimal precision scale _ => .decimal precision scale
  | .array element => .list .list element.arrow true
  | .map key value => .map key.arrow value.arrow true
  | .struct fields => .struct (arrowFields fields)

def arrowFields : List SqlField → List ArrowField
  | [] => []
  | ⟨name, _, type⟩ :: fields => ⟨String.ofList name, type.arrow, true, []⟩ :: arrowFields fields

end

end DeltaSwamp.TypeText
