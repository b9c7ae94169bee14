import DeltaSwamp.Dialect.Parser
import DeltaSwamp.Doubled

/-!
# String literals

`_unescape`, `sql_text.literal`, `standard_string_literals` and `_respell`: what a
Spark literal holds, and the text in which each engine reads it. What is decoded is
kept by its code points: `\ud800` is no character of a text.
-/

namespace DeltaSwamp.Dialect

abbrev CodePoints := List Nat

def points (text : List Char) : CodePoints := text.map Char.toNat

/-- `[0-3][0-7][0-7]` and the number it spells. -/
def octal : List Char → Option Nat
  | [a, b, c] =>
    if ('0' ≤ a ∧ a ≤ '3') ∧ ('0' ≤ b ∧ b ≤ '7') ∧ '0' ≤ c ∧ c ≤ '7' then
      some (64 * Text.digitValue a + 8 * Text.digitValue b + Text.digitValue c)
    else none
  | _ => none

def hexValue (c : Char) : Option Nat :=
  if '0' ≤ c ∧ c ≤ '9' then some (Text.digitValue c)
  else if 'a' ≤ c ∧ c ≤ 'f' then some (c.toNat - 'a'.toNat + 10)
  else if 'A' ≤ c ∧ c ≤ 'F' then some (c.toNat - 'A'.toNat + 10)
  else none

/-- `[0-9a-fA-F]{4}` and the number it spells. -/
def hex : List Char → Option Nat
  | [a, b, c, d] => do
    return 4096 * (← hexValue a) + 256 * (← hexValue b) + 16 * (← hexValue c) + (← hexValue d)
  | _ => none

/-- `_SPARK_ESCAPES`. A wildcard of LIKE stays escaped. -/
def sparkEscapes : List (Char × CodePoints) :=
  [('\'', [39]), ('"', [34]), ('b', [8]), ('n', [10]), ('r', [13]), ('t', [9]), ('Z', [26]),
    ('\\', [92]), ('0', [0]), ('%', [92, 37]), ('_', [92, 95])]

def sparkEscape (c : Char) : CodePoints := (sparkEscapes.lookup c).getD [c.toNat]

/-- What the characters after a backslash stand for, and how many of them do. -/
def escape (rest : List Char) : CodePoints × Nat :=
  match octal (rest.take 3), rest with
  | some n, _ => ([n], 3)
  | none, 'u' :: more =>
    match hex (more.take 4) with
    | some n => ([n], 5)
    | none => (sparkEscape 'u', 1)
  | none, c :: _ => (sparkEscape c, 1)
  | none, [] => ([], 0)

/-- The decoding loop, which passes over the characters an escape has taken. -/
def unescapeFrom : Nat → List Char → CodePoints
  | _, [] => []
  | taken + 1, _ :: rest => unescapeFrom taken rest
  | 0, c :: rest =>
    if c = '\\' ∧ rest ≠ [] then (escape rest).1 ++ unescapeFrom (escape rest).2 rest
    else c.toNat :: unescapeFrom 0 rest

/-- What is between the quotes of a token. -/
def inner (token : List Char) : List Char := token.tail.dropLast

def unescape (token : List Char) : CodePoints := unescapeFrom 0 (inner token)

def replaceChar (c : Char) (text : List Char) (by_ : List Char) : List Char :=
  text.flatMap fun d => if d = c then by_ else [d]

/-- `sql_text.literal` of a value that is not None. -/
def sqlLiteral (value : List Char) : List Char :=
  '\'' :: replaceChar '\'' (replaceChar '\\' value ['\\', '\\']) ['\\', '\''] ++ ['\'']

/-- A text between two marks, doubled inside. -/
def quoted (mark : Char) (value : CodePoints) : CodePoints :=
  mark.toNat :: Doubled.double mark.toNat value ++ [mark.toNat]

/-- `_string` -/
def ansiString (value : CodePoints) : CodePoints := quoted '\'' value

/-- The name a backquoted token spells. -/
def identifier (token : Tok) : List Char := Doubled.undouble '`' (inner token.text)

inductive Found
  | literal (text : List Char)
  | name (text : List Char)
  | quote (c : Char)

/-- `_SPARK_TEXT` at the start of a text. -/
def sparkText (text : List Char) : Option (Found × List Char) :=
  ((literal '\'' text <|> literal '"' text).map fun read => (.literal read.1, read.2)) <|>
    ((quotedName text).map fun read => (.name read.1, read.2)) <|>
    match text with
    | c :: rest => if c = '\'' ∨ c = '"' then some (.quote c, rest) else none
    | [] => none

/-- The respelling so far: what is written, the run that is open, and the text since its end (since
the text last written, where no run is open). -/
structure Respelling where
  out : CodePoints
  run : List (List Char)
  since : List Char

/-- What is written once the open run is. -/
def Respelling.flushed (s : Respelling) : CodePoints :=
  if s.run = [] then s.out else s.out ++ ansiString (s.run.flatMap unescape)

section
variable (chars : Chars)

/-- A literal of the text, which goes on with the open run where only white space is between. -/
def Respelling.literal (s : Respelling) (text : List Char) : Respelling :=
  if s.run ≠ [] ∧ s.since.all chars.isSpace then { s with run := s.run ++ [text], since := [] }
  else ⟨s.flushed ++ points s.since, [text], []⟩

def Respelling.name (s : Respelling) (text : List Char) : Respelling :=
  ⟨s.flushed, [], s.since ++ text⟩

def Respelling.finish (s : Respelling) (text : List Char) : CodePoints :=
  s.flushed ++ points (s.since ++ text)

/-- The loop over the matches; an unterminated quote ends it. -/
def standardFrom : Nat → List Char → Respelling → CodePoints
  | turns + 1, c :: text, s =>
    match sparkText (c :: text) with
    | none => standardFrom turns text { s with since := s.since ++ [c] }
    | some (.literal found, rest) => standardFrom turns rest (s.literal chars found)
    | some (.name found, rest) => standardFrom turns rest (s.name found)
    | some (.quote _, _) => s.finish (c :: text)
  | _, text, s => s.finish text

def standardStringLiterals (text : List Char) : CodePoints :=
  if '\'' ∉ text ∧ '"' ∉ text then points text else standardFrom chars text.length text ⟨[], [], []⟩

end

inductive Target
  | duckdb | datafusion
  deriving DecidableEq, Repr

inductive Suffix
  | plain | L | S | Y | D | F | BD
  deriving DecidableEq, Repr

def letterSuffix (c : Char) : Option Suffix :=
  if c = 'L' ∨ c = 'l' then some .L
  else if c = 'S' ∨ c = 's' then some .S
  else if c = 'Y' ∨ c = 'y' then some .Y
  else if c = 'D' ∨ c = 'd' then some .D
  else if c = 'F' ∨ c = 'f' then some .F
  else none

/-- `_split_number`: the digits and the type suffix, looked for from the end. -/
def splitNumber (text : List Char) : List Char × Suffix :=
  match text.reverse with
  | [] => (text, .plain)
  | c :: before =>
    match letterSuffix c with
    | none => (text, .plain)
    | some suffix =>
      if suffix = .D ∧ (before.head? = some 'B' ∨ before.head? = some 'b') then
        (before.tail.reverse, .BD)
      else (before.reverse, suffix)

/-- The precision and scale of digits with the suffix BD. -/
def decimalShape (digits : List Char) : Nat × Nat :=
  let whole := digits.takeWhile (· ≠ '.')
  let frac := (digits.dropWhile (· ≠ '.')).tail
  (max (max ((whole ++ frac).dropWhile (· = '0')).length frac.length) 1, frac.length)

/-- `_number` -/
def numberText (target : Target) : List Char × Suffix → List Char
  | (digits, .D) =>
    if target = .duckdb then "CAST(".toList ++ digits ++ " AS DOUBLE)".toList
    else "arrow_cast('".toList ++ digits ++ "', 'Float64')".toList
  | (digits, .F) =>
    if target = .duckdb then "CAST(".toList ++ digits ++ " AS FLOAT)".toList
    else "arrow_cast('".toList ++ digits ++ "', 'Float32')".toList
  | (digits, .BD) =>
    if target = .duckdb ∨ 38 < (decimalShape digits).1 then digits
    else "arrow_cast('".toList ++ digits ++ "', 'Decimal128(".toList ++
      (toString (decimalShape digits).1).toList ++ ", ".toList ++
      (toString (decimalShape digits).2).toList ++ ")')".toList
  | (digits, .S) =>
    if target = .duckdb then "CAST(".toList ++ digits ++ " AS SMALLINT)".toList
    else "arrow_cast(".toList ++ digits ++ ", 'Int16')".toList
  | (digits, .Y) =>
    if target = .duckdb then "CAST(".toList ++ digits ++ " AS TINYINT)".toList
    else "arrow_cast(".toList ++ digits ++ ", 'Int8')".toList
  | (digits, _) => digits

/-- A token that is not a literal, as the target spells it. -/
def respellToken (target : Target) (token : Tok) : CodePoints :=
  match token.kind with
  | .bq =>
    if target = .duckdb then quoted '"' (points (identifier token)) else points token.text
  | .num => points (numberText target (splitNumber token.text))
  | .op =>
    if token.text = ['<', '=', '>'] then points " IS NOT DISTINCT FROM ".toList
    else if token.text = ['=', '='] then points ['=']
    else points token.text
  | _ => points token.text

/-- The literals that go on with a run, and the tokens after the last of them; `gap` is the white
space since it. -/
def takeRun : List Tok → List Tok → CodePoints × List Tok
  | gap, [] => ([], gap)
  | gap, token :: rest =>
    if token.kind = .ws then takeRun (gap ++ [token]) rest
    else if isLiteral token then
      (unescape token.text ++ (takeRun [] rest).1, (takeRun [] rest).2)
    else ([], gap ++ token :: rest)

/-- The loop over the tokens; each turn takes one. -/
def respellFrom (target : Target) : Nat → List Tok → CodePoints
  | turns + 1, token :: rest =>
    if isLiteral token then
      ansiString (unescape token.text ++ (takeRun [] rest).1) ++
        respellFrom target turns (takeRun [] rest).2
    else respellToken target token ++ respellFrom target turns rest
  | _, _ => []

section
variable (chars : Chars)

def subscript : String :=
  "an array subscript counts from 0 in Spark and from 1 in DuckDB and DataFusion (use " ++
    "element_at, which counts from 1 everywhere)"

/-- Why a token, with the solid ones after it, must not pass as written. `warehouse` gives the
reason for a function, by its upper-cased name. -/
def rawReasonAt (warehouse : List Char → Option String) (token : Tok) (rest : List Tok) :
    Option String :=
  let word := if token.kind = .word then chars.upper token.text else []
  if word ∈ ["DIV".toList, "RLIKE".toList, "REGEXP".toList] then
    some (String.ofList word ++
      " appears in SQL this library does not parse, so it cannot be translated")
  else if (rest.head?.map Tok.text) = some ['('] ∧ (warehouse word).isSome then warehouse word
  else if token.kind = .op ∧ token.text = ['['] then
    match rest with
    | key :: close :: _ => if key.kind = .str ∧ close.text = [']'] then none else some subscript
    | _ => some subscript
  else none

def rawReasonFrom (warehouse : List Char → Option String) : List Tok → Option String
  | [] => none
  | token :: rest => rawReasonAt chars warehouse token rest <|> rawReasonFrom warehouse rest

/-- `_raw_reason` -/
def rawReason (warehouse : List Char → Option String) (tokens : List Tok) : Option String :=
  rawReasonFrom chars warehouse (tokens.filter fun token => token.kind ≠ .ws)

/-- `_respell`, or the reason it refuses the tokens. -/
def respell (warehouse : List Char → Option String) (tokens : List Tok) (target : Target)
    (check : Bool) : Except String CodePoints :=
  match if check then rawReason chars warehouse tokens else none with
  | some reason => .error reason
  | none => .ok (respellFrom target tokens.length tokens)

end
end DeltaSwamp.Dialect
