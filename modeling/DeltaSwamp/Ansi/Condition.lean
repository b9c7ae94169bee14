import DeltaSwamp.Ansi.Tokens
import DeltaSwamp.Kleene

/-!
# Conditions in ANSI SQL text

Tests of a quoted column (`IS NULL`, `=` a literal) put together by `AND`, `OR` and
parentheses: how they are read from a text, and what they are worth on a row.
-/

namespace DeltaSwamp.Ansi

open List

inductive Literal
  | str (text : Text)
  | hex (text : Text)
  | number (negative : Bool) (text : Text)
  | bool (b : Bool)
  /-- `CAST('text' AS type)` -/
  | cast (text type : Text)
  deriving DecidableEq, Repr

inductive Condition
  | isNull (column : Text)
  | equals (column : Text) (literal : Literal)
  | and (a b : Condition)
  | or (a b : Condition)
  deriving DecidableEq, Repr

/-- A keyword, in any letter case. -/
def Token.isKeyword (keyword : Text) : Token → Bool
  | .word text => text.map Char.toLower = keyword
  | _ => false

def readCast : List Token → Option (Literal × List Token)
  | .mark '(' :: .str text :: as :: .word type :: .mark ')' :: rest =>
    if as.isKeyword ['a', 's'] then some (.cast text type, rest) else none
  | _ => none

def readLiteral : List Token → Option (Literal × List Token)
  | .str text :: rest => some (.str text, rest)
  | .hex text :: rest => some (.hex text, rest)
  | .number text :: rest => some (.number false text, rest)
  | .mark '-' :: .number text :: rest => some (.number true text, rest)
  | .word word :: rest =>
    if (Token.word word).isKeyword ['t', 'r', 'u', 'e'] then some (.bool true, rest)
    else if (Token.word word).isKeyword ['f', 'a', 'l', 's', 'e'] then some (.bool false, rest)
    else if (Token.word word).isKeyword ['c', 'a', 's', 't'] then readCast rest
    else none
  | _ => none

def readTest : List Token → Option (Condition × List Token)
  | .name _ column :: .mark '=' :: rest =>
    (readLiteral rest).map fun read => (.equals column read.1, read.2)
  | .name _ column :: is :: null :: rest =>
    if is.isKeyword ['i', 's'] ∧ null.isKeyword ['n', 'u', 'l', 'l'] then
      some (.isNull column, rest)
    else none
  | _ => none

/-- A part, and the rest of the whole where the keyword follows it. -/
def linked (keyword : Text) (combine : Condition → Condition → Condition)
    (part whole : List Token → Option (Condition × List Token)) (tokens : List Token) :
    Option (Condition × List Token) :=
  (part tokens).bind fun read =>
    match read.2 with
    | [] => some (read.1, [])
    | token :: rest =>
      if token.isKeyword keyword then
        (whole rest).map fun more => (combine read.1 more.1, more.2)
      else some (read.1, token :: rest)

inductive Level
  | or
  | and
  | primary

def readCondition : ℕ → Level → List Token → Option (Condition × List Token)
  | 0, _, _ => none
  | n + 1, .or, tokens => linked ['o', 'r'] .or (readCondition n .and) (readCondition n .or) tokens
  | n + 1, .and, tokens =>
    linked ['a', 'n', 'd'] .and (readCondition n .primary) (readCondition n .and) tokens
  | n + 1, .primary, .mark '(' :: tokens =>
    (readCondition n .or tokens).bind fun read =>
      match read.2 with
      | .mark ')' :: rest => some (read.1, rest)
      | _ => none
  | _ + 1, .primary, tokens => readTest tokens

/-- A token takes at most three turns: one for each level. -/
def conditionOf (tokens : List Token) : Option Condition :=
  (readCondition (3 * tokens.length + 3) .or tokens).bind fun read =>
    if read.2 = [] then some read.1 else none

/-- The condition a text is, `none` where it is none of these. -/
def parse (chars : Alphabet) (text : Text) : Option Condition :=
  (lex chars text).bind fun tokens => conditionOf (tokens.filter fun token => !token.isSpace)

section
variable {V : Type} (compare : Text → V → Literal → Truth) (row : Text → Option V)

def Condition.eval : Condition → Truth
  | .isNull column => some (row column).isNone
  | .equals column literal => (row column).bind fun v => compare column v literal
  | .and a b => a.eval.and b.eval
  | .or a b => a.eval.or b.eval

/-- Conditions put together from the right. -/
def Condition.chain (combine : Condition → Condition → Condition) (first : Condition) :
    List Condition → Condition
  | [] => first
  | next :: rest => combine first (chain combine next rest)

variable {compare row} {first : Condition} {rest : List Condition}

theorem Condition.and_eq_true :
    (chain .and first rest).eval compare row = some true ↔
      ∀ c ∈ first :: rest, c.eval compare row = some true := by
  induction rest generalizing first with
  | nil => simp [chain]
  | cons next rest ih =>
    rw [chain, eval, Truth.and_eq_true, ih]
    simp

theorem Condition.or_eq_true :
    (chain .or first rest).eval compare row = some true ↔
      ∃ c ∈ first :: rest, c.eval compare row = some true := by
  induction rest generalizing first with
  | nil => simp [chain]
  | cons next rest ih =>
    rw [chain, eval, Truth.or_eq_true, ih]
    simp

end

/-- Tokens that read as a condition at a level, in any number of turns from some on, before any
token that does not go on at that level. -/
def Reads (level : Level) (turns : ℕ) (goesOn : Token → Bool) (tokens : List Token)
    (condition : Condition) : Prop :=
  ∀ n rest, turns ≤ n → (∀ token ∈ rest.head?, goesOn token = false) →
    readCondition n level (tokens ++ rest) = some (condition, rest)

/-- Tokens that read as a test before any others. -/
structure IsTest (tokens : List Token) (condition : Condition) : Prop where
  reads : ∀ rest, readTest (tokens ++ rest) = some (condition, rest)
  starts : ∃ quote column more, tokens = .name quote column :: more

variable {condition : Condition}

theorem IsTest.primary {tokens : List Token} (h : IsTest tokens condition) :
    Reads .primary 1 (fun _ => false) tokens condition := by
  intro n rest hn _
  obtain ⟨quote, column, more, rfl⟩ := h.starts
  cases n with
  | zero => omega
  | succ n => exact h.reads rest

/-- Parts with a keyword between them. -/
def joined (keyword : Text) (first : List Token) : List (List Token) → List Token
  | [] => first
  | next :: rest => first ++ .word keyword :: joined keyword next rest

variable {turns : ℕ} {conditions : List Condition}

/-- Parts a level reads, joined by its keyword, are read as their chain. -/
theorem reads_joined {level part : Level} {keyword spelled : Text}
    {combine : Condition → Condition → Condition} {goesOn : Token → Bool} {turns : ℕ}
    (hlevel : ∀ n tokens, readCondition (n + 1) level tokens =
      linked keyword combine (readCondition n part) (readCondition n level) tokens)
    (hspelled : spelled.map Char.toLower = keyword) (hword : goesOn (.word spelled) = false)
    {first : List Token} {condition : Condition} {rest : List (List Token)}
    {conditions : List Condition} (hfirst : Reads part turns goesOn first condition)
    (hrest : List.Forall₂ (Reads part turns goesOn) rest conditions) :
    Reads level (turns + rest.length + 1) (fun token => goesOn token || token.isKeyword keyword)
      (joined spelled first rest) (.chain combine condition conditions) := by
  induction hrest generalizing first condition with
  | nil =>
    intro n more hn hmore
    cases n with
    | zero => omega
    | succ n =>
      have hread := hfirst n more (by simpa using hn)
        fun token htoken => (Bool.or_eq_false_iff.mp (hmore token htoken)).1
      rw [joined, hlevel, linked, hread, Option.bind_some]
      cases more with
      | nil => rfl
      | cons token more =>
        have hend := (Bool.or_eq_false_iff.mp (hmore token rfl)).2
        simp [hend, Condition.chain]
  | @cons next condition' rest conditions hnext _ ih =>
    intro n more hn hmore
    rw [length_cons] at hn
    cases n with
    | zero => omega
    | succ n =>
      have hread := hfirst n (.word spelled :: (joined spelled next rest ++ more)) (by omega) (by
        rintro token ⟨rfl⟩
        exact hword)
      have hmany := ih hnext n more (by omega) hmore
      rw [joined, append_assoc, hlevel, linked, cons_append, hread, Option.bind_some]
      simp [Token.isKeyword, hspelled, hmany, Condition.chain]

theorem reads_parenthesised {turns : ℕ} {goesOn : Token → Bool} {tokens : List Token}
    {condition : Condition} (h : Reads .or turns goesOn tokens condition)
    (hclose : goesOn (.mark ')') = false) :
    Reads .primary (turns + 1) (fun _ => false)
      (.mark '(' :: (tokens ++ [.mark ')'])) condition := by
  intro n rest hn _
  cases n with
  | zero => omega
  | succ n =>
    have hread := h n (.mark ')' :: rest) (by omega) (by
      rintro token ⟨rfl⟩
      exact hclose)
    rw [cons_append, append_assoc, readCondition, singleton_append, hread]
    rfl

theorem conditionOf_reads {goesOn : Token → Bool} {tokens : List Token}
    (h : Reads .or turns goesOn tokens condition) (hturns : turns ≤ 3 * tokens.length + 3) :
    conditionOf tokens = some condition := by
  have hread := h _ [] hturns (by simp)
  rw [append_nil] at hread
  rw [conditionOf, hread]
  rfl

theorem length_joined (keyword : Text) (first : List Token) (rest : List (List Token)) :
    first.length + rest.length ≤ (joined keyword first rest).length := by
  induction rest generalizing first with
  | nil => exact Nat.le_refl _
  | cons next rest ih =>
    have hmore := ih next
    simp only [joined, length_append, length_cons]
    omega

theorem reads_conjunction {first : List Token} {rest : List (List Token)}
    (hfirst : IsTest first condition) (hrest : List.Forall₂ IsTest rest conditions) :
    Reads .primary (rest.length + 4) (fun _ => false)
      (.mark '(' :: (joined ['A', 'N', 'D'] first rest ++ [.mark ')']))
      (.chain .and condition conditions) := by
  have hand := @reads_joined .and .primary _ ['A', 'N', 'D'] _ _ 1 (fun _ _ => rfl) rfl rfl _ _ _ _
    hfirst.primary (hrest.imp fun _ _ => IsTest.primary)
  have hor := @reads_joined .or .and _ ['O', 'R'] _ _ _ (fun _ _ => rfl) rfl rfl _ _ _ _ hand .nil
  have hparens := reads_parenthesised hor rfl
  intro n more hn hmore
  exact hparens n more (by simp only [length_nil]; omega) hmore

/-- A disjunction of primaries is read whole. -/
theorem conditionOf_disjunction {first : List Token} {rest : List (List Token)}
    (hfirst : Reads .primary turns (fun _ => false) first condition)
    (hrest : List.Forall₂ (Reads .primary turns fun _ => false) rest conditions)
    (hturns : turns ≤ first.length + 1) :
    conditionOf (joined ['O', 'R'] first rest) = some (.chain .or condition conditions) := by
  have hpart : ∀ {tokens condition}, Reads .primary turns (fun _ => false) tokens condition →
      Reads .and (turns + 1) (fun token => false || token.isKeyword ['a', 'n', 'd']) tokens
        condition :=
    fun h =>
      @reads_joined .and .primary _ ['A', 'N', 'D'] _ _ turns (fun _ _ => rfl) rfl rfl _ _ _ _ h
        .nil
  have hor := @reads_joined .or .and _ ['O', 'R'] _ _ _ (fun _ _ => rfl) rfl rfl _ _ _ _
    (hpart hfirst) (hrest.imp fun _ _ => hpart)
  have hlength := length_joined ['O', 'R'] first rest
  exact conditionOf_reads hor (by omega)

section
variable {chars : Alphabet}

variable (chars) in
/-- A text that starts with no blank and reads as tokens, blanks left out. -/
structure Written (text : Text) (tokens : List Token) : Prop where
  spells : ∃ all, Spells chars text all ∧ (all.filter fun token => !token.isSpace) = tokens
  solid : ∃ c more, text = c :: more ∧ chars.isSpace c = false

variable {text : Text} {tokens : List Token}

theorem Written.parse (h : Written chars text tokens) : parse chars text = conditionOf tokens := by
  obtain ⟨⟨all, hspells, rfl⟩, -⟩ := h
  rw [Ansi.parse, hspells.lex]
  rfl

theorem Written.str (text : Text) :
    Written chars ('\'' :: (Doubled.double '\'' text ++ ['\''])) [.str text] :=
  ⟨⟨_, spells_str text, rfl⟩, _, _, rfl, mark_solid chars (by decide)⟩

theorem Written.name (text : Text) :
    Written chars ('"' :: (Doubled.double '"' text ++ ['"'])) [.name '"' text] :=
  ⟨⟨_, spells_name text, rfl⟩, _, _, rfl, mark_solid chars (by decide)⟩

theorem Written.hex {body : Text} (hbody : ∀ c ∈ body, isHexDigit c = true) :
    Written chars ('X' :: '\'' :: (body ++ ['\''])) [.hex ('X' :: '\'' :: (body ++ ['\'']))] :=
  ⟨⟨_, spells_hex hbody, rfl⟩, _, _, rfl, word_solid (chars.letter_word 'X' (Or.inl (by decide)))⟩

theorem Written.number {whole frac power : Text} (h : Unsigned whole frac power) :
    Written chars (whole ++ frac ++ power) [.number (whole ++ frac ++ power)] := by
  refine ⟨⟨_, spells_number h, rfl⟩, ?_⟩
  obtain ⟨c, more, rfl⟩ := exists_cons_of_ne_nil h.whole_ne
  exact ⟨c, _, rfl, word_solid (chars.digit_word c (h.whole_digit c mem_cons_self))⟩

variable {c : Char}

theorem Written.word (hword : ∀ d ∈ c :: text, d.isAlpha = true) (hx : c ≠ 'x' ∧ c ≠ 'X') :
    Written chars (c :: text) [.word (c :: text)] :=
  ⟨⟨_, spells_word hword hx, rfl⟩, _, _, rfl,
    word_solid (chars.letter_word c (Or.inl (hword c mem_cons_self)))⟩

theorem Written.mark (hc : c ∈ marks) (hquote : c ∉ ['\'', '"', '`', '.'])
    (h : Written chars text tokens) : Written chars (c :: text) (.mark c :: tokens) := by
  obtain ⟨⟨all, hspells, rfl⟩, -⟩ := h
  exact ⟨⟨_, spells_mark hc hquote hspells, rfl⟩, _, _, rfl, mark_solid chars hc⟩

theorem Written.lone (hc : c ∈ marks) (hquote : c ∉ ['\'', '"', '`', '.']) :
    Written chars [c] [.mark c] := by
  have hnil : Spells chars [] [] := by
    intro rest _
    cases hlex : Ansi.lex chars rest with
    | none => rw [nil_append, hlex]; rfl
    | some tokens => rw [nil_append, hlex]; rfl
  exact ⟨⟨_, spells_mark hc hquote hnil, rfl⟩, _, _, rfl, mark_solid chars hc⟩

theorem Written.blank {first last : Text} {firstTokens lastTokens : List Token}
    (hfirst : Written chars first firstTokens) (hlast : Written chars last lastTokens) :
    Written chars (first ++ ' ' :: last) (firstTokens ++ lastTokens) := by
  obtain ⟨⟨all, hspells, rfl⟩, c, more, rfl, hc⟩ := hfirst
  obtain ⟨⟨all', hspells', rfl⟩, hsolid⟩ := hlast
  exact ⟨⟨_, hspells.blank hspells' hsolid, by simp [Token.isSpace]⟩, c, _, rfl, hc⟩

theorem Written.parenthesised (h : Written chars text tokens) :
    Written chars ('(' :: (text ++ [')'])) (.mark '(' :: (tokens ++ [.mark ')'])) := by
  obtain ⟨⟨all, hspells, rfl⟩, -⟩ := h
  exact ⟨⟨_, hspells.parenthesised, by simp [Token.isSpace]⟩, _, _, rfl,
    mark_solid chars (by decide)⟩

theorem Written.call {word : Text} (hword : ∀ d ∈ c :: word, d.isAlpha = true)
    (hx : c ≠ 'x' ∧ c ≠ 'X') (h : Written chars text tokens) :
    Written chars (c :: (word ++ '(' :: (text ++ [')'])))
      (.word (c :: word) :: .mark '(' :: (tokens ++ [.mark ')'])) := by
  obtain ⟨⟨all, hspells, rfl⟩, -⟩ := h
  exact ⟨⟨_, hspells.call hword hx, by simp [Token.isSpace]⟩, _, _, rfl,
    word_solid (chars.letter_word c (Or.inl (hword c mem_cons_self)))⟩

/-- Texts with a keyword between them. -/
def joinedText (keyword : Text) (first : Text) : List Text → Text
  | [] => first
  | next :: rest => first ++ ' ' :: (keyword ++ ' ' :: joinedText keyword next rest)

theorem joinedText_eq (keyword first : Text) (rest : List Text) :
    joinedText keyword first rest = (' ' :: (keyword ++ [' '])).intercalate (first :: rest) := by
  induction rest generalizing first with
  | nil => simp [joinedText]
  | cons next rest ih =>
    rw [joinedText, ih]
    simp [List.intercalate, List.intersperse]

theorem Written.joined {keyword : Text} (hkeyword : Written chars keyword [.word keyword])
    {first : Text} {firstTokens : List Token} {rest : List Text} {restTokens : List (List Token)}
    (hfirst : Written chars first firstTokens)
    (hrest : List.Forall₂ (Written chars) rest restTokens) :
    Written chars (joinedText keyword first rest) (Ansi.joined keyword firstTokens restTokens) := by
  induction hrest generalizing first firstTokens with
  | nil => exact hfirst
  | cons hnext _ ih => exact hfirst.blank (hkeyword.blank (ih hnext))

end

end DeltaSwamp.Ansi
