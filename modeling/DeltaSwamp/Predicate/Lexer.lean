import DeltaSwamp.Dialect.Literals
import Mathlib.Data.List.DropRight

/-!
# The tokens of a predicate

`_TOKEN`, `_tokenize` and `_Parser.value` of the predicate parser, which reads SQL
text by a token table of its own.
-/

namespace DeltaSwamp.Predicate.Lexer

open Dialect (Chars Read CodePoints unescape)

inductive Kind
  | number | string | dstring | quoted | op | word
  deriving DecidableEq, Repr

structure Tok where
  kind : Kind
  text : List Char
  deriving DecidableEq, Repr

/-- A literal from after its quote. The pattern's dot is no line feed, so an escaped one ends no
literal. -/
def literalBody (quote : Char) : List Char → Read
  | [] => none
  | [c] => if c = quote then some ([c], []) else none
  | c :: d :: cs =>
    if c = quote then some ([c], d :: cs)
    else if c = '\\' then
      if d = '\n' then none else Read.after [c, d] (literalBody quote cs)
    else Read.after [c] (literalBody quote (d :: cs))

def literal (quote : Char) : List Char → Read
  | c :: cs => if c = quote then Read.after [c] (literalBody quote cs) else none
  | [] => none

/-- A quoted name, which is not empty. -/
def quotedName (text : List Char) : Read :=
  (Dialect.quotedName text).filter fun read => read.1 ≠ ['`', '`']

def operators : List (List Char) :=
  [['<', '=', '>'], ['<', '='], ['>', '='], ['<', '>'], ['!', '='], ['=', '='], ['='], ['<'], ['>'],
    ['('], [')'], [','], ['.']]

def operator (text : List Char) : Read :=
  (operators.find? fun symbol => symbol.isPrefixOf text).map fun symbol =>
    (symbol, text.drop symbol.length)

def numberSuffix : List Char → List Char × List Char
  | c :: cs => if c ∈ ['L', 'l', 'D', 'd', 'F', 'f'] then ([c], cs) else ([], c :: cs)
  | [] => ([], [])

section
variable (chars : Chars)

/-- `\d+\.\d*|\.\d+|\d+` -/
def digits (text : List Char) : Read :=
  match text.takeWhile chars.isDigit, text.dropWhile chars.isDigit with
  | [], '.' :: rest =>
    if rest.takeWhile chars.isDigit = [] then none
    else some ('.' :: rest.takeWhile chars.isDigit, rest.dropWhile chars.isDigit)
  | [], _ => none
  | first, '.' :: rest =>
    some (first ++ '.' :: rest.takeWhile chars.isDigit, rest.dropWhile chars.isDigit)
  | first, rest => some (first, rest)

def number (text : List Char) : Read :=
  (digits chars (Dialect.sign text).2).map fun read =>
    let power := Dialect.exponent chars read.2
    let suffix := numberSuffix power.2
    ((Dialect.sign text).1 ++ read.1 ++ power.1 ++ suffix.1, suffix.2)

def ofKind (kind : Kind) : Read → Option (Tok × List Char) :=
  Option.map fun read => (⟨kind, read.1⟩, read.2)

/-- `_TOKEN` at the start of a text, after the white space there. -/
def readToken (text : List Char) : Option (Tok × List Char) :=
  let text := text.dropWhile chars.isSpace
  ofKind .number (number chars text) <|> ofKind .string (literal '\'' text) <|>
    ofKind .dstring (literal '"' text) <|> ofKind .quoted (quotedName text) <|>
    ofKind .op (operator text) <|> ofKind .word (Dialect.word chars text)

inductive LexError
  | separator
  /-- Text beyond the grammar, with the characters quoted. -/
  | cannotParse (excerpt : List Char)
  deriving DecidableEq, Repr

/-- The loop over a text with no white space at its end; each token takes a character. -/
def tokensFrom : Nat → List Char → Except LexError (List Tok)
  | turns + 1, c :: text =>
    match readToken chars (c :: text) with
    | some (token, rest) => (tokensFrom turns rest).map (token :: ·)
    | none => .error (if c = ';' then .separator else .cannotParse ((c :: text).take 20))
  | _, _ => .ok []

/-- `str.rstrip` -/
def rstrip (text : List Char) : List Char := text.rdropWhile chars.isSpace

/-- `_tokenize` -/
def tokenize (text : List Char) : Except LexError (List Tok) :=
  tokensFrom chars (rstrip chars text).length (rstrip chars text)

/-- A value as `_Parser.value` takes it from the tokens; `_number` and `_typed` read on. -/
inductive Value
  | number (text : List Char)
  | string (value : CodePoints)
  | typed (keyword : List Char) (raw : CodePoints)
  | boolean (value : Bool)
  | null
  | column (path : List (List Char))
  deriving DecidableEq, Repr

inductive ParseError
  | endsUnexpectedly
  | expectedParen (got : Option (List Char))
  | unexpectedKeyword (text : List Char)
  | functionCall (text : List Char)
  | badColumn
  | unexpected (text : List Char)
  deriving DecidableEq, Repr

def isString (token : Tok) : Bool := token.kind = .string || token.kind = .dstring

def keywords : List (List Char) :=
  ["AND", "OR", "NOT", "IS", "NULL", "IN", "BETWEEN", "LIKE", "ILIKE", "TRUE", "FALSE"].map
    String.toList

def typedLiterals : List (List Char) :=
  ["DATE", "TIMESTAMP", "TIMESTAMP_NTZ", "TIMESTAMP_LTZ"].map String.toList

def symbol (text : List Char) (tokens : List Tok) : Bool :=
  tokens.head?.any fun token => token.kind = .op && token.text = text

/-- `_ident` -/
def ident (token : Tok) : List Char :=
  if token.kind = .quoted then Doubled.undouble '`' (Dialect.inner token.text) else token.text

/-- The parts of a column's path after the first. -/
def pathFrom : List Tok → Except ParseError (List (List Char) × List Tok)
  | dot :: part :: rest =>
    if symbol ['.'] [dot] then
      if part.kind = .word ∨ part.kind = .quoted then
        (pathFrom rest).map fun read => (ident part :: read.1, read.2)
      else .error .badColumn
    else .ok ([], dot :: part :: rest)
  | [token] => if symbol ['.'] [token] then .error .endsUnexpectedly else .ok ([], [token])
  | [] => .ok ([], [])

def closeParen (read : Value × List Tok) : Except ParseError (Value × List Tok) :=
  if symbol [')'] read.2 then .ok (read.1, read.2.tail)
  else .error (.expectedParen (read.2.head?.map Tok.text))

def namedValue (token : Tok) (rest : List Tok) : Except ParseError (Value × List Tok) :=
  let upper := if token.kind = .word then chars.upper token.text else []
  if upper = "TRUE".toList ∨ upper = "FALSE".toList then
    .ok (.boolean (upper = "TRUE".toList), rest)
  else if upper = "NULL".toList then .ok (.null, rest)
  else
    match rest with
    | literal :: more =>
      if upper ∈ typedLiterals ∧ isString literal then
        .ok (.typed upper (unescape literal.text), more)
      else named upper (literal :: more)
    | [] => named upper []
where
  named (upper : List Char) (rest : List Tok) : Except ParseError (Value × List Tok) :=
    if token.kind = .word ∧ upper ∈ keywords then .error (.unexpectedKeyword token.text)
    else if symbol ['('] rest then .error (.functionCall token.text)
    else (pathFrom rest).map fun read => (.column (ident token :: read.1), read.2)

/-- `_Parser.value`: the value the tokens begin with, and the tokens after it. -/
def value : List Tok → Except ParseError (Value × List Tok)
  | [] => .error .endsUnexpectedly
  | token :: rest =>
    if token.kind = .number then .ok (.number token.text, rest)
    else if isString token then
      .ok (.string (unescape token.text ++
        (rest.takeWhile isString).flatMap fun next => unescape next.text), rest.dropWhile isString)
    else if token.kind = .op ∧ token.text = ['('] then (value rest).bind closeParen
    else if token.kind = .word ∨ token.kind = .quoted then namedValue chars token rest
    else .error (.unexpected token.text)

end
end DeltaSwamp.Predicate.Lexer
