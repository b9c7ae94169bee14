import DeltaSwamp.Dialect.Tokens

/-!
# The expression grammar

`_Parser`, by what each rule leaves of the tokens: `check_expression` drops the
tree. A rule that raises `_Unparsed` gives `none`.
-/

namespace DeltaSwamp.Dialect

abbrev Rule := List Tok → Option (List Tok)

def reserved : List String :=
  ["AND", "OR", "NOT", "IS", "IN", "BETWEEN", "LIKE", "ILIKE", "RLIKE", "REGEXP", "CASE", "WHEN",
    "THEN", "ELSE", "END", "ESCAPE", "DIV", "FROM", "AS", "SELECT", "DISTINCT", "EXISTS", "FOR",
    "WITH", "UNION", "WHERE", "ANY", "ALL", "SOME"]

def typedWords : List String := ["DATE", "TIMESTAMP", "TIMESTAMP_NTZ", "TIMESTAMP_LTZ"]

def intervalUnits : List String :=
  ["YEAR", "YEARS", "MONTH", "MONTHS", "WEEK", "WEEKS", "DAY", "DAYS", "HOUR", "HOURS", "MINUTE",
    "MINUTES", "SECOND", "SECONDS", "MILLISECOND", "MILLISECONDS", "MICROSECOND", "MICROSECONDS",
    "TO"]

def callKeywords : List String := ["FROM", "FOR", "IN", "BOTH", "LEADING", "TRAILING", "PLACING"]

/-- Words Spark allows right after a complete operand. -/
def postfixWords : List String :=
  ["COLLATE", "OVER", "FILTER", "WITHIN", "IGNORE", "RESPECT", "NULLS"]

/-- The binary operators by precedence; a higher one binds tighter. -/
def binaryOperators : List (List Char × Nat) :=
  [(['*'], 7), (['/'], 7), (['%'], 7), (['+'], 6), (['-'], 6), (['|', '|'], 6), (['<', '<'], 5),
    (['>', '>'], 5), (['&'], 4), (['^'], 3), (['|'], 2), (['='], 1), (['=', '='], 1),
    (['<', '>'], 1), (['!', '='], 1), (['<'], 1), (['<', '='], 1), (['>'], 1), (['>', '='], 1),
    (['<', '=', '>'], 1)]

def skip (tokens : List Tok) : List Tok := tokens.dropWhile fun token => token.kind == .ws

def peek (tokens : List Tok) : Option Tok := (skip tokens).head?

/-- The tokens after the next one. -/
def advance (tokens : List Tok) : List Tok := (skip tokens).tail

def Tok.isOp (token : Tok) (symbols : List (List Char)) : Bool :=
  token.kind == .op && symbols.contains token.text

def op (symbols : List (List Char)) (tokens : List Tok) : Bool :=
  (peek tokens).any fun token => token.isOp symbols

def expectOp (symbol : List Char) (tokens : List Tok) : Option (List Tok) :=
  if op [symbol] tokens then some (advance tokens) else none

def isLiteral (token : Tok) : Bool := token.kind == .str || token.kind == .dstr

/-- A loop of the source, a turn while the condition holds; each turn takes a token. -/
def loopFrom (goOn : List Tok → Bool) (turn : Rule) : Nat → Rule
  | 0, _ => none
  | turns + 1, tokens =>
    if goOn tokens then (turn tokens).bind (loopFrom goOn turn turns) else some tokens

def loop (goOn : List Tok → Bool) (turn : Rule) (tokens : List Tok) : Option (List Tok) :=
  loopFrom goOn turn (tokens.length + 1) tokens

section
variable (chars : Chars)

def Tok.isWord (token : Tok) (words : List String) : Bool :=
  token.kind == .word && words.any fun w => w.toList == chars.upper token.text

def wordAt (words : List String) (tokens : List Tok) : Bool :=
  (peek tokens).any fun token => token.isWord chars words

def expectWord (w : String) (tokens : List Tok) : Option (List Tok) :=
  if wordAt chars [w] tokens then some (advance tokens) else none

def precedence (token : Tok) : Option Nat :=
  if token.isWord chars ["DIV"] then some 7
  else if token.kind == .op then binaryOperators.lookup token.text
  else none

/-- The rules a rule may call again, one level of recursion down. -/
structure Rules where
  expr : Rule
  notExpr : Rule
  value : Nat → Rule
  unary : Rule

/-- The tokens of a type's parameters, to where its brackets close. -/
def typeParameters : Int → Rule
  | _, [] => none
  | depth, token :: tokens =>
    if token.kind == .ws then typeParameters depth tokens
    else
      let next :=
        if token.isOp [['('], ['<']] then depth + 1
        else if token.isOp [[')'], ['>']] then depth - 1
        else if token.isOp [['>', '>'], ['>', '>', '>']] then depth - token.text.length
        else depth
      if next ≤ 0 then some tokens else typeParameters next tokens

def typeTokens (tokens : List Tok) : Option (List Tok) :=
  match skip tokens with
  | [] => none
  | token :: rest =>
    if token.kind != .word then none
    else if !op [['('], ['<']] rest then some rest
    else typeParameters 0 rest

def interval (tokens : List Tok) : Option (List Tok) :=
  loop (fun rest => (peek rest).any fun next =>
      next.isWord chars intervalUnits || next.kind == .str || next.kind == .num ||
        next.isOp [['-']])
    (fun rest => some (advance rest)) tokens

/-- The index of the `)` that closes the `(` the tokens start with, past the end if none. -/
def matchingFrom : Nat → List Tok → Nat
  | _, [] => 0
  | depth, token :: tokens =>
    if token.isOp [['(']] then matchingFrom (depth + 1) tokens + 1
    else if token.isOp [[')']] then
      if depth ≤ 1 then 0 else matchingFrom (depth - 1) tokens + 1
    else matchingFrom depth tokens + 1

/-- Whether a call's arguments use a keyword or a lambda at their top level. -/
def special : Int → List Tok → Bool
  | _, [] => false
  | depth, token :: tokens =>
    if token.isOp [['('], ['[']] then special (depth + 1) tokens
    else if token.isOp [[')'], [']']] then special (depth - 1) tokens
    else
      (depth == 0 && (token.isWord chars callKeywords || token.isOp [['-', '>']])) ||
        special depth tokens

section
variable (self : Rules)

/-- One expression or more, between commas. -/
def items (tokens : List Tok) : Option (List Tok) :=
  (self.expr tokens).bind (loop (op [[',']]) fun rest => self.expr (advance rest))

def call (tokens : List Tok) : Option (List Tok) :=
  let opened := skip tokens
  let close := matchingFrom 0 opened
  let inner := ((opened.take close).drop 1).filter fun token => token.kind != .ws
  if special chars 0 inner || opened.length ≤ close then some (opened.drop (close + 1))
  else
    let first := advance tokens
    let arguments := if wordAt chars ["DISTINCT"] first then advance first else first
    if op [[')']] arguments then expectOp [')'] arguments
    else (items self arguments).bind (expectOp [')'])

def caseRule (tokens : List Tok) : Option (List Tok) :=
  (if wordAt chars ["WHEN"] tokens then some tokens else self.expr tokens).bind fun whens =>
    if !wordAt chars ["WHEN"] whens then none
    else
      (loop (wordAt chars ["WHEN"])
          (fun rest => (self.expr (advance rest)).bind fun condition =>
            (expectWord chars "THEN" condition).bind self.expr) whens).bind fun rest =>
        (if wordAt chars ["ELSE"] rest then self.expr (advance rest) else some rest).bind
          (expectWord chars "END")

def castRule (tokens : List Tok) : Option (List Tok) :=
  (self.expr (advance tokens)).bind fun operand =>
    (expectWord chars "AS" operand).bind fun kind => (typeTokens kind).bind (expectOp [')'])

def group (tokens : List Tok) : Option (List Tok) :=
  if wordAt chars ["SELECT", "WITH"] tokens then none
  else (self.expr tokens).bind fun inner =>
    if op [[',']] inner then none else expectOp [')'] inner

/-- A name, a keyword's own form, or a call, after its word. -/
def wordPrimary (token : Tok) (rest : List Tok) : Option (List Tok) :=
  if token.isWord chars ["TRUE", "FALSE", "NULL"] then some rest
  else if token.isWord chars typedWords && (peek rest).any fun next => next.kind == .str then
    some (advance rest)
  else if token.isWord chars ["X"] && rest.head?.any fun next => next.kind == .str then
    some rest.tail
  else if token.isWord chars ["INTERVAL"] then interval chars rest
  else if token.isWord chars ["CASE"] then caseRule chars self rest
  else if token.isWord chars ["CAST", "TRY_CAST"] && op [['(']] rest then castRule chars self rest
  else if op [['(']] rest then call chars self rest
  else if token.isWord chars reserved then none
  else some rest

def primary (tokens : List Tok) : Option (List Tok) :=
  match skip tokens with
  | [] => none
  | token :: rest =>
    match token.kind with
    | .num | .bq => some rest
    | .str | .dstr =>
      loop (fun next => (peek next).any isLiteral) (fun next => some (advance next)) rest
    | .op =>
      if token.text = ['('] then group chars self rest
      else if token.text = ['*'] then some rest
      else none
    | .word => wordPrimary chars self token rest
    | .ws | .other => none

def fieldName (tokens : List Tok) : Option (List Tok) :=
  if (peek tokens).any fun token => token.kind == .word || token.kind == .bq then
    some (advance tokens)
  else none

def postfixes (tokens : List Tok) : Option (List Tok) :=
  loop (op [['.'], ['['], [':', ':']])
    (fun rest =>
      if op [['.']] rest then fieldName (advance rest)
      else if op [['[']] rest then (self.expr (advance rest)).bind (expectOp [']'])
      else typeTokens (advance rest)) tokens

def unary (tokens : List Tok) : Option (List Tok) :=
  if op [['-'], ['+'], ['~']] tokens then self.unary (advance tokens)
  else (primary chars self tokens).bind (postfixes self)

def value (least : Nat) (tokens : List Tok) : Option (List Tok) :=
  (unary chars self tokens).bind
    (loop
      (fun rest => ((peek rest).bind (precedence chars)).any fun level => decide (least ≤ level))
      fun rest => ((peek rest).bind (precedence chars)).bind fun level =>
        self.value (level + 1) (advance rest))

def between (tokens : List Tok) : Option (List Tok) :=
  (value chars self 0 tokens).bind fun low =>
    (expectWord chars "AND" low).bind (value chars self 0)

def inList (tokens : List Tok) : Option (List Tok) :=
  (expectOp ['('] tokens).bind fun rest =>
    if wordAt chars ["SELECT", "WITH"] rest then none
    else (items self rest).bind (expectOp [')'])

def likePattern (tokens : List Tok) : Option (List Tok) :=
  if wordAt chars ["ANY", "ALL", "SOME"] tokens then none
  else (value chars self 0 tokens).bind fun rest =>
    if wordAt chars ["ESCAPE"] rest then value chars self 0 (advance rest) else some rest

def isRule (tokens : List Tok) : Option (List Tok) :=
  let rest := if wordAt chars ["NOT"] tokens then advance tokens else tokens
  if wordAt chars ["NULL", "UNKNOWN"] rest then some (advance rest)
  else if wordAt chars ["TRUE", "FALSE"] rest then some (advance rest)
  else if wordAt chars ["DISTINCT"] rest then
    (expectWord chars "FROM" (advance rest)).bind (value chars self 0)
  else none

def predicate (tokens : List Tok) : Option (List Tok) :=
  (value chars self 0 tokens).bind fun left =>
    let negated := wordAt chars ["NOT"] left &&
      wordAt chars ["BETWEEN", "IN", "LIKE", "ILIKE", "RLIKE", "REGEXP"] (advance left)
    let rest := if negated then advance left else left
    if wordAt chars ["BETWEEN"] rest then between chars self (advance rest)
    else if wordAt chars ["IN"] rest then inList chars self (advance rest)
    else if wordAt chars ["LIKE", "ILIKE"] rest then likePattern chars self (advance rest)
    else if wordAt chars ["RLIKE", "REGEXP"] rest then value chars self 0 (advance rest)
    else if negated then none
    else if wordAt chars ["IS"] rest then isRule chars self (advance rest)
    else some rest

def notExpr (tokens : List Tok) : Option (List Tok) :=
  if wordAt chars ["NOT"] tokens || op [['!']] tokens then self.notExpr (advance tokens)
  else if wordAt chars ["EXISTS"] tokens then none
  else predicate chars self tokens

def andExpr (tokens : List Tok) : Option (List Tok) :=
  (notExpr chars self tokens).bind
    (loop (wordAt chars ["AND"]) fun rest => notExpr chars self (advance rest))

def expr (tokens : List Tok) : Option (List Tok) :=
  (andExpr chars self tokens).bind
    (loop (wordAt chars ["OR"]) fun rest => andExpr chars self (advance rest))

end

/-- The rules under a limit of recursion, past which a call raises `RecursionError`. -/
def grammar : Nat → Rules
  | 0 => ⟨fun _ => none, fun _ => none, fun _ _ => none, fun _ => none⟩
  | limit + 1 =>
    ⟨expr chars (grammar limit), notExpr chars (grammar limit), value chars (grammar limit),
      unary chars (grammar limit)⟩

/-- The whole text as one expression. -/
def parse (limit : Nat) (tokens : List Tok) : Option Unit :=
  ((grammar chars limit).expr tokens).bind fun rest =>
    if (peek rest).isSome then none else some ()

end
section
variable (chars : Chars) (repr : List Char → String)

/-- The opening bracket a closing one needs. -/
def closing : List Char → Option Char
  | [')'] => some '('
  | [']'] => some '['
  | _ => none

def quoteTexts : List (List Char) := [['\''], ['"'], ['`']]

/-- Two tokens that start a comment. -/
def isComment (token : Tok) (next : Option Tok) : Bool :=
  next.any fun next =>
    (token.isOp [['-']] && next.isOp [['-']]) || (token.isOp [['/']] && next.isOp [['*']])

/-- One token's part of the structural check, with the brackets open before and after it. -/
def checkToken (stack : List Char) (token : Tok) (next : Option Tok) : Except String (List Char) :=
  match token.kind with
  | .other =>
    if token.text = [';'] then .error "';' outside a string literal ends a statement"
    else if quoteTexts.contains token.text then
      .error ("an unterminated " ++ String.ofList token.text ++ " literal or name")
    else .ok stack
  | .op =>
    if isComment token next then .error "it holds a SQL comment"
    else if token.text = ['('] then .ok ('(' :: stack)
    else if token.text = ['['] then .ok ('[' :: stack)
    else match closing token.text with
      | some opening =>
        if stack.head? = some opening then .ok stack.tail
        else .error ("an unbalanced " ++ repr token.text)
      | none =>
        if token.text = [','] ∧ stack = [] then
          .error "a ',' outside parentheses separates two expressions"
        else .ok stack
  | _ => .ok stack

def checkTokens : List Char → List Tok → Except String (List Char)
  | stack, [] => .ok stack
  | stack, token :: tokens =>
    (checkToken repr stack token tokens.head?).bind fun next => checkTokens next tokens

/-- The token after an expression the text starts with. -/
def checkTail : Option Tok → Except String Unit
  | none => .ok ()
  | some tail =>
    if tail.isWord chars postfixWords then .ok ()
    else if [Kind.word, .num, .str, .dstr, .bq].contains tail.kind then
      .error (repr tail.text ++ " follows a complete expression")
    else .ok ()

def checkGrammar (limit : Nat) (tokens : List Tok) : Except String Unit :=
  match parse chars limit tokens with
  | some () => .ok ()
  | none =>
    match (grammar chars limit).expr tokens with
    | none => .ok ()
    | some rest => checkTail chars repr (peek rest)

def checkText (limit : Nat) (text : List Char) : Except String Unit :=
  (checkTokens repr [] (tokenize chars text)).bind fun stack =>
    match stack with
    | top :: _ => .error ("an unclosed " ++ repr [top])
    | [] =>
      if text.all chars.isSpace then .ok () else checkGrammar chars repr limit (tokenize chars text)

/-- `check_expression` under a limit of recursion. -/
def checkExpression (limit : Nat) (text : List Char) (what : String) : Except String Unit :=
  (checkText chars repr limit text).mapError fun why =>
    what ++ " " ++ repr text ++ " is not a single SQL expression: " ++ why

end

/-- What the grammar reads at the start of a text is all of it, up to a suffix that starts with a
keyword Spark allows there. -/
def OneExpression (chars : Chars) (limit : Nat) (text : List Char) : Prop :=
  ∀ rest, (grammar chars limit).expr (tokenize chars text) = some rest →
    ∀ tail, peek rest = some tail → tail.isWord chars postfixWords = true

/-- An operator, or a character outside the token table, right after the expression the grammar
reads at the start. -/
def operatorTail (chars : Chars) (limit : Nat) (text : List Char) : Prop :=
  ∃ rest tail, (grammar chars limit).expr (tokenize chars text) = some rest ∧
    peek rest = some tail ∧ (tail.kind = .op ∨ tail.kind = .other)

section
variable {chars : Chars} {repr : List Char → String}

variable {limit : Nat} {text : List Char} {what : String}

theorem checkExpression_ok (haccepted : checkExpression chars repr limit text what = .ok ()) :
    checkTokens repr [] (tokenize chars text) = .ok [] ∧
      (text.all chars.isSpace = true ∨
        checkGrammar chars repr limit (tokenize chars text) = .ok ()) := by
  unfold checkExpression at haccepted
  cases hcheck : checkText chars repr limit text with
  | error why => rw [hcheck] at haccepted; simp [Except.mapError] at haccepted
  | ok _ =>
    unfold checkText at hcheck
    cases hstack : checkTokens repr [] (tokenize chars text) with
    | error why => rw [hstack] at hcheck; simp [Except.bind] at hcheck
    | ok stack =>
      rw [hstack] at hcheck
      cases stack with
      | cons top stack => simp [Except.bind] at hcheck
      | nil =>
        refine ⟨rfl, ?_⟩
        by_cases hblank : text.all chars.isSpace = true
        · exact Or.inl hblank
        · right
          simpa [Except.bind, hblank] using hcheck

variable {tokens : List Tok}

theorem peek_not_ws {tail : Tok} (hpeek : peek tokens = some tail) : tail.kind ≠ .ws := by
  intro hws
  have hhead := List.head?_dropWhile_not (fun token : Tok => token.kind == .ws) tokens
  unfold peek skip at hpeek
  rw [hpeek] at hhead
  simp [hws] at hhead

theorem expr_blank (hblank : skip tokens = []) : (grammar chars limit).expr tokens = none := by
  cases limit with
  | zero => rfl
  | succ limit =>
    have hpeek : peek tokens = none := by simp [peek, hblank]
    have hword : ∀ words, wordAt chars words tokens = false := by simp [wordAt, hpeek]
    have hop : ∀ symbols, op symbols tokens = false := by simp [op, hpeek]
    simp [grammar, expr, andExpr, notExpr, predicate, value, unary, primary, hblank, hword, hop]

theorem skip_blank (hblank : text.all chars.isSpace = true) : skip (tokenize chars text) = [] := by
  cases text with
  | nil => rfl
  | cons c cs =>
    rw [List.all_cons, Bool.and_eq_true, List.all_eq_true] at hblank
    obtain ⟨hc, hcs⟩ := hblank
    have hread : readToken chars (c :: cs) = some (⟨.ws, c :: cs⟩, []) := by
      simp [readToken, Read.as, spaces, hc, List.takeWhile_eq_self_iff.mpr hcs,
        List.dropWhile_eq_nil_iff.mpr hcs]
    have hrest : ∀ turns, tokenizeFrom chars turns [] = [] := by
      intro turns
      cases turns with
      | zero => rfl
      | succ turns =>
        simp [tokenizeFrom, readToken, Read.as, spaces, literal, quotedName, number, word,
          operator, operators, anyChar]
    simp [tokenize, tokenizeFrom, hread, hrest, skip]

theorem parse_some {rest : List Tok} (hexpr : (grammar chars limit).expr tokens = some rest) :
    parse chars limit tokens = if (peek rest).isSome then none else some () := by
  simp [parse, hexpr]

theorem accepted_tail {rest : List Tok} {tail : Tok}
    (haccepted : checkExpression chars repr limit text what = .ok ())
    (hexpr : (grammar chars limit).expr (tokenize chars text) = some rest)
    (hpeek : peek rest = some tail) :
    tail.isWord chars postfixWords = true ∨ tail.kind = .op ∨ tail.kind = .other := by
  obtain ⟨-, hgrammar⟩ := checkExpression_ok haccepted
  cases hgrammar with
  | inl hblank =>
    rw [expr_blank (skip_blank hblank)] at hexpr
    cases hexpr
  | inr hgrammar =>
    unfold checkGrammar at hgrammar
    rw [parse_some hexpr, hpeek, hexpr] at hgrammar
    dsimp only [Option.isSome_some, if_true] at hgrammar
    rw [if_pos rfl] at hgrammar
    dsimp only at hgrammar
    rw [hpeek] at hgrammar
    unfold checkTail at hgrammar
    by_cases hword : tail.isWord chars postfixWords = true
    · exact Or.inl hword
    · right
      have hws := peek_not_ws hpeek
      cases hkind : tail.kind <;> simp_all

/-- An accepted text is one expression with a keyword's suffix, unless an operator or a character
outside the token table follows the expression. -/
theorem oneExpression_iff (haccepted : checkExpression chars repr limit text what = .ok ()) :
    OneExpression chars limit text ↔ ¬ operatorTail chars limit text := by
  constructor
  · rintro hone ⟨rest, tail, hexpr, hpeek, hkind⟩
    have hword := hone rest hexpr tail hpeek
    simp only [Tok.isWord, Bool.and_eq_true, beq_iff_eq] at hword
    rw [hword.1] at hkind
    rcases hkind with h | h <;> cases h
  · intro hnone rest hexpr tail hpeek
    rcases accepted_tail haccepted hexpr hpeek with hword | hop
    · exact hword
    · exact absurd ⟨rest, tail, hexpr, hpeek, hop⟩ hnone

end
end DeltaSwamp.Dialect
