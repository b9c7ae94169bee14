import DeltaSwamp.Text
import Mathlib.Data.List.Basic
import Mathlib.Data.List.TakeWhile

/-!
# Tokens of Spark SQL text

`_TOKEN` and `_tokenize`: the text cut into literals, names, numbers, words and
operators, and what the characters of each kind of token look like.
-/

namespace DeltaSwamp.Dialect

/-- The characters the token table and Spark's lexer give a meaning. -/
def marks : List Char :=
  ['\'', '"', '`', '\\', ';', ':', '-', '+', '*', '/', '%', '=', '<', '>', '!', '~', '^', '&', '|',
    '(', ')', '.', ',', '[', ']']

/-- The character classes of the regular expressions (`\s`, `\d`, `\w`) and `str.upper`. -/
structure Chars where
  isSpace : Char → Bool
  isDigit : Char → Bool
  isWord : Char → Bool
  upper : List Char → List Char
  digit_word : ∀ c, isDigit c = true → isWord c = true
  letter_word : ∀ c, c.isAlpha = true ∨ c = '_' → isWord c = true
  space_plain : ∀ c, isSpace c = true → isWord c = false
  mark_plain : ∀ c ∈ marks, isWord c = false
  mark_solid : ∀ c ∈ marks, isSpace c = false

inductive Kind
  | ws | str | dstr | bq | num | word | op | other
  deriving DecidableEq, Repr

structure Tok where
  kind : Kind
  text : List Char
  deriving DecidableEq, Repr

/-- What one alternative of the table reads, and what it leaves. -/
abbrev Read := Option (List Char × List Char)

def Read.after (first : List Char) : Read → Read :=
  Option.map fun read => (first ++ read.1, read.2)

section
variable (chars : Chars)

def spaces : List Char → Read
  | c :: cs =>
    if chars.isSpace c then some (c :: cs.takeWhile chars.isSpace, cs.dropWhile chars.isSpace)
    else none
  | [] => none

/-- A literal from after its quote, through the closing one. -/
def literalBody (quote : Char) : List Char → Read
  | [] => none
  | [c] => if c = quote then some ([c], []) else none
  | c :: d :: cs =>
    if c = quote then some ([c], d :: cs)
    else if c = '\\' then Read.after [c, d] (literalBody quote cs)
    else Read.after [c] (literalBody quote (d :: cs))

def literal (quote : Char) : List Char → Read
  | c :: cs => if c = quote then Read.after [c] (literalBody quote cs) else none
  | [] => none

/-- A quoted name from after its quote. A doubled quote is tried first as part of the name, and
closes it where no later quote does. -/
def nameBody : List Char → Read
  | [] => none
  | [c] => if c = '`' then some ([c], []) else none
  | c :: d :: cs =>
    if c = '`' then
      if d = '`' then
        match nameBody cs with
        | some read => some (c :: d :: read.1, read.2)
        | none => some ([c], d :: cs)
      else some ([c], d :: cs)
    else Read.after [c] (nameBody (d :: cs))

def quotedName : List Char → Read
  | c :: cs => if c = '`' then Read.after [c] (nameBody cs) else none
  | [] => none

def sign : List Char → List Char × List Char
  | c :: cs => if c = '+' ∨ c = '-' then ([c], cs) else ([], c :: cs)
  | [] => ([], [])

def exponent : List Char → List Char × List Char
  | c :: cs =>
    if (c = 'e' ∨ c = 'E') ∧ ((sign cs).2.takeWhile chars.isDigit) ≠ [] then
      (c :: (sign cs).1 ++ (sign cs).2.takeWhile chars.isDigit,
        (sign cs).2.dropWhile chars.isDigit)
    else ([], c :: cs)
  | [] => ([], [])

def numberSuffix : List Char → List Char × List Char
  | c :: d :: cs =>
    if c ∈ ['B', 'b'] ∧ d ∈ ['D', 'd'] then ([c, d], cs)
    else if c ∈ ['L', 'l', 'S', 's', 'Y', 'y', 'D', 'd', 'F', 'f'] then ([c], d :: cs)
    else ([], c :: d :: cs)
  | [c] => if c ∈ ['L', 'l', 'S', 's', 'Y', 'y', 'D', 'd', 'F', 'f'] then ([c], []) else ([], [c])
  | [] => ([], [])

def startsWord : List Char → Bool
  | c :: _ => chars.isWord c
  | [] => false

/-- The exponent, the type suffix and the lookahead after a number's digits. Giving back any of them
leaves a word character for the lookahead to refuse. -/
def numberFrom (digits rest : List Char) : Read :=
  let power := exponent chars rest
  let suffix := numberSuffix power.2
  if startsWord chars suffix.2 then none else some (digits ++ power.1 ++ suffix.1, suffix.2)

def number (text : List Char) : Read :=
  let digits := text.takeWhile chars.isDigit
  match digits, text.dropWhile chars.isDigit with
  | [], '.' :: rest =>
    if rest.takeWhile chars.isDigit = [] then none
    else numberFrom chars ('.' :: rest.takeWhile chars.isDigit) (rest.dropWhile chars.isDigit)
  | [], _ => none
  | _ :: _, '.' :: rest =>
    numberFrom chars (digits ++ '.' :: rest.takeWhile chars.isDigit)
        (rest.dropWhile chars.isDigit) <|>
      numberFrom chars digits ('.' :: rest)
  | _ :: _, rest => numberFrom chars digits rest

def word : List Char → Read
  | c :: cs =>
    if (chars.isWord c && !chars.isDigit c) || c == '_' then
      some (c :: cs.takeWhile chars.isWord, cs.dropWhile chars.isWord)
    else none
  | [] => none

/-- The operators, in the order the table tries them. -/
def operators : List (List Char) :=
  [['<', '=', '>'], ['-', '>'], [':', ':'], ['|', '|'], ['<', '<'], ['>', '>', '>'], ['>', '>'],
    ['<', '='], ['>', '='], ['<', '>'], ['!', '='], ['=', '='], ['-'], ['+'], ['*'], ['/'], ['%'],
    ['='], ['<'], ['>'], ['!'], ['~'], ['^'], ['&'], ['|'], ['('], [')'], ['.'], [','], ['['],
    [']']]

def operator (text : List Char) : Read :=
  (operators.find? fun symbol => symbol.isPrefixOf text).map fun symbol =>
    (symbol, text.drop symbol.length)

def anyChar : List Char → Read
  | c :: cs => some ([c], cs)
  | [] => none

def Read.as (kind : Kind) : Read → Option (Tok × List Char) :=
  Option.map fun read => (⟨kind, read.1⟩, read.2)

def readToken (text : List Char) : Option (Tok × List Char) :=
  Read.as .ws (spaces chars text) <|> Read.as .str (literal '\'' text) <|>
    Read.as .dstr (literal '"' text) <|> Read.as .bq (quotedName text) <|>
    Read.as .num (number chars text) <|> Read.as .word (word chars text) <|>
    Read.as .op (operator text) <|> Read.as .other (anyChar text)

/-- The tokens of a text; each takes a character, so the text's length is turns enough. -/
def tokenizeFrom : Nat → List Char → List Tok
  | 0, _ => []
  | turns + 1, text =>
    match readToken chars text with
    | none => []
    | some (token, rest) => token :: tokenizeFrom turns rest

def tokenize (text : List Char) : List Tok := tokenizeFrom chars text.length text

end
inductive Lexeme
  | word (text : List Char)
  | symbol (c : Char)
  | literal (text : List Char)
  | name (text : List Char)
  | comment
  | unclosed
  deriving DecidableEq, Repr

/-- Where the lexer stands, with the characters of the lexeme it is inside. -/
inductive Mode
  | plain
  | word (run : List Char)
  | minus
  | slash
  | quoted (quote : Char) (read : List Char)
  | escape (quote : Char) (read : List Char)
  | raw (quote : Char) (read : List Char)
  | name (read : List Char)
  | nameEnd (read : List Char)
  | line (escaped : Bool)
  | block (depth : Nat) (last : Option Char)
  deriving DecidableEq, Repr

/-- What ends where the text does. -/
def Mode.flush : Mode → List Lexeme
  | .plain => []
  | .word run => [.word run]
  | .minus => [.symbol '-']
  | .slash => [.symbol '/']
  | .nameEnd read => [.name read]
  | .line _ => [.comment]
  | .quoted .. | .escape .. | .raw .. | .name _ | .block .. => [.unclosed]

/-- Outside literals, names and comments. -/
def Mode.Outside : Mode → Prop
  | .plain | .word _ | .minus | .slash | .nameEnd _ => True
  | _ => False

/-- The run of word characters just read. -/
def Mode.run : Mode → List Char
  | .word run => run
  | _ => []

def isQuote (c : Char) : Bool := c == '\'' || c == '"'

/-- Whether a run of word characters makes the literal after it a raw one. -/
def isRawMark (run : List Char) : Bool := run == ['r'] || run == ['R']

def emit (lexeme : Lexeme) (next : List Lexeme × Mode) : List Lexeme × Mode :=
  (lexeme :: next.1, next.2)

section
variable (chars : Chars)

/-- A character at the start of a lexeme. -/
def start (c : Char) : List Lexeme × Mode :=
  if chars.isSpace c then ([], .plain)
  else if isQuote c then ([], .quoted c [c])
  else if c = '`' then ([], .name [c])
  else if c = '-' then ([], .minus)
  else if c = '/' then ([], .slash)
  else if chars.isWord c then ([], .word [c])
  else ([.symbol c], .plain)

def step : Mode → Char → List Lexeme × Mode
  | .plain, c => start chars c
  | .word run, c =>
    if chars.isWord c then ([], .word (run ++ [c]))
    else if isQuote c && isRawMark run then ([], .raw c (run ++ [c]))
    else emit (.word run) (start chars c)
  | .minus, c => if c = '-' then ([], .line false) else emit (.symbol '-') (start chars c)
  | .slash, c => if c = '*' then ([], .block 1 none) else emit (.symbol '/') (start chars c)
  | .quoted quote read, c =>
    if c = quote then ([.literal (read ++ [c])], .plain)
    else if c = '\\' then ([], .escape quote (read ++ [c]))
    else ([], .quoted quote (read ++ [c]))
  | .escape quote read, c => ([], .quoted quote (read ++ [c]))
  | .raw quote read, c =>
    if c = quote then ([.literal (read ++ [c])], .plain) else ([], .raw quote (read ++ [c]))
  | .name read, c => if c = '`' then ([], .nameEnd (read ++ [c])) else ([], .name (read ++ [c]))
  | .nameEnd read, c =>
    if c = '`' then ([], .name (read ++ [c])) else emit (.name read) (start chars c)
  | .line escaped, c =>
    if c = '\n' ∧ escaped = true then ([], .line false)
    else if c = '\n' ∨ c = '\r' then ([.comment], .plain)
    else ([], .line (c == '\\'))
  | .block depth last, c =>
    if last = some '*' ∧ c = '/' then
      if depth ≤ 1 then ([.comment], .plain) else ([], .block (depth - 1) none)
    else if last = some '/' ∧ c = '*' then ([], .block (depth + 1) none)
    else ([], .block depth (some c))

def run : Mode → List Char → List Lexeme × Mode
  | mode, [] => ([], mode)
  | mode, c :: cs =>
    ((step chars mode c).1 ++ (run (step chars mode c).2 cs).1, (run (step chars mode c).2 cs).2)

/-- The tokens of a text. -/
def lexemes (text : List Char) : List Lexeme :=
  (run chars .plain text).1 ++ (run chars .plain text).2.flush

end

/-- One lexeme of a group: what it opens and closes. Comments, unclosed literals, `;` and a `,`
outside parentheses have no place in it. -/
def scanOne (stack : List Char) : Lexeme → Option (List Char)
  | .symbol c =>
    if c = '(' ∨ c = '[' then some (c :: stack)
    else if c = ')' then if stack.head? = some '(' then some stack.tail else none
    else if c = ']' then if stack.head? = some '[' then some stack.tail else none
    else if c = ';' then none
    else if c = ',' ∧ stack = [] then none
    else some stack
  | .comment | .unclosed => none
  | .word _ | .literal _ | .name _ => some stack

def scan (stack : List Char) (group : List Lexeme) : Option (List Char) :=
  group.foldlM scanOne stack

/-- Spliced in parentheses after any statement text that ends outside literals and comments, and
before any other, a text is one group: balanced on its own, with no `;`, no comment and no `,` at
its top level. -/
structure Contained (chars : Chars) (text : List Char) : Prop where
  spliced : ∀ before after, (run chars .plain before).2.Outside →
    lexemes chars (before ++ '(' :: text ++ ')' :: after) =
      lexemes chars before ++ .symbol '(' :: lexemes chars text ++
        .symbol ')' :: lexemes chars after
  balanced : scan [] (lexemes chars text) = some []

section
variable {chars : Chars}

variable (chars) in
theorem run_append (mode : Mode) (first last : List Char) :
    run chars mode (first ++ last) =
      ((run chars mode first).1 ++ (run chars (run chars mode first).2 last).1,
        (run chars (run chars mode first).2 last).2) := by
  induction first generalizing mode with
  | nil => simp [run]
  | cons c cs ih => simp [run, ih, List.append_assoc]

theorem scan_cons (stack : List Char) (lexeme : Lexeme) (group : List Lexeme) :
    scan stack (lexeme :: group) = (scanOne stack lexeme).bind fun next => scan next group := rfl

theorem scan_append (stack : List Char) (first last : List Lexeme) :
    scan stack (first ++ last) = (scan stack first).bind fun next => scan next last := by
  simp [scan, List.foldlM_append, Option.bind_eq_bind]

variable {mode : Mode}

variable (chars) in
theorem step_outside (houtside : mode.Outside) {c : Char} (hplain : chars.isWord c = false)
    (hquote : isQuote c = false) (hminus : c ≠ '-') (hstar : c ≠ '*') (hname : c ≠ '`') :
    step chars mode c = (mode.flush ++ (start chars c).1, (start chars c).2) := by
  cases mode <;> first | exact houtside.elim | simp [step, Mode.flush, emit, *]

theorem start_open : start chars '(' = ([.symbol '('], .plain) := by
  simp [start, isQuote, chars.mark_solid '(' (by simp [marks]),
    chars.mark_plain '(' (by simp [marks])]

theorem start_close : start chars ')' = ([.symbol ')'], .plain) := by
  simp [start, isQuote, chars.mark_solid ')' (by simp [marks]),
    chars.mark_plain ')' (by simp [marks])]

theorem run_open (houtside : mode.Outside) (text : List Char) :
    run chars mode ('(' :: text) =
      (mode.flush ++ .symbol '(' :: (run chars .plain text).1, (run chars .plain text).2) := by
  have hstep := step_outside chars houtside
    (chars.mark_plain '(' (by simp [marks])) rfl (by decide) (by decide) (by decide)
  simp [run, hstep, start_open]

theorem run_close (houtside : mode.Outside) (text : List Char) :
    run chars mode (')' :: text) =
      (mode.flush ++ .symbol ')' :: (run chars .plain text).1, (run chars .plain text).2) := by
  have hstep := step_outside chars houtside
    (chars.mark_plain ')' (by simp [marks])) rfl (by decide) (by decide) (by decide)
  simp [run, hstep, start_close]

/-- A text the lexer leaves outside literals and comments is a group of its own wherever it is
spliced. -/
theorem lexemes_spliced {text : List Char} (houtside : (run chars .plain text).2.Outside)
    (before after : List Char) (hbefore : (run chars .plain before).2.Outside) :
    lexemes chars (before ++ '(' :: text ++ ')' :: after) =
      lexemes chars before ++ .symbol '(' :: lexemes chars text ++
        .symbol ')' :: lexemes chars after := by
  simp only [lexemes, List.append_assoc, List.cons_append]
  rw [run_append, run_open hbefore, run_append, run_close houtside]
  simp

end
end DeltaSwamp.Dialect
