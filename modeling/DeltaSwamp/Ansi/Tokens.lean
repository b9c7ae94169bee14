import DeltaSwamp.Doubled
import DeltaSwamp.Numeral

/-!
# Tokens of SQL text in ANSI quoting

String literals in single quotes, names in double quotes or backquotes (the quote
doubled inside), hex literals, numbers, words, and the marks between them.
-/

namespace DeltaSwamp.Ansi

open List

/-- The characters the grammar gives a meaning. -/
def marks : List Char :=
  ['\'', '"', '`', '(', ')', ',', '.', ';', ':', '=', '<', '>', '!', '+', '-', '*', '/', '%', '|',
    '[', ']']

/-- Which characters are white space, and which make up words. -/
structure Alphabet where
  isSpace : Char → Bool
  isWord : Char → Bool
  blank_space : isSpace ' ' = true
  space_plain : ∀ c, isSpace c = true → isWord c = false
  digit_word : ∀ c, c.isDigit = true → isWord c = true
  letter_word : ∀ c, c.isAlpha = true ∨ c = '_' → isWord c = true
  mark_plain : ∀ c ∈ marks, isWord c = false ∧ isSpace c = false

/-- Blanks, and ASCII letters, digits and underscores. -/
def ascii : Alphabet where
  isSpace c := c = ' ' || c = '\t' || c = '\n' || c = '\r'
  isWord c := c.isAlphanum || c = '_'
  blank_space := rfl
  space_plain c hc := by
    simp only [Bool.or_eq_true, decide_eq_true_eq] at hc
    obtain ((rfl | rfl) | rfl) | rfl := hc <;> decide
  digit_word c hc := by simp [Char.isAlphanum, hc]
  letter_word c hc := by
    obtain hc | rfl := hc
    · simp [Char.isAlphanum, hc]
    · decide
  mark_plain := by decide

inductive Token
  | space (text : Text)
  /-- A string literal, by its contents. -/
  | str (text : Text)
  /-- A quoted name, by its quote and contents. -/
  | name (quote : Char) (text : Text)
  | hex (text : Text)
  | number (text : Text)
  | word (text : Text)
  | mark (c : Char)
  deriving DecidableEq, Repr

def Token.text : Token → Text
  | .str text => '\'' :: (Doubled.double '\'' text ++ ['\''])
  | .name quote text => quote :: (Doubled.double quote text ++ [quote])
  | .space text | .hex text | .number text | .word text => text
  | .mark c => [c]

def Token.isSpace : Token → Bool
  | .space _ => true
  | _ => false

def isHexDigit (c : Char) : Bool :=
  c.isDigit || ('a' ≤ c && c ≤ 'f') || ('A' ≤ c && c ≤ 'F')

def signText : Text → Text
  | '-' :: _ => ['-']
  | '+' :: _ => ['+']
  | _ => []

/-- An exponent, and what follows it. -/
def exponent : Text → Text × Text
  | [] => ([], [])
  | c :: rest =>
    let power := Numeral.run (Numeral.splitSign rest).2
    if (c = 'e' ∨ c = 'E') ∧ power.1 ≠ [] then (c :: (signText rest ++ power.1), power.2)
    else ([], c :: rest)

/-- A fraction, and what follows it. -/
def fraction : Text → Text × Text
  | [] => ([], [])
  | c :: rest =>
    if c = '.' then (c :: (Numeral.run rest).1, (Numeral.run rest).2) else ([], c :: rest)

/-- Digits, a fraction and an exponent, and what follows them. -/
def number (text : Text) : Text × Text :=
  let whole := Numeral.run text
  let frac := fraction whole.2
  let power := exponent frac.2
  (whole.1 ++ frac.1 ++ power.1, power.2)

/-- Whether a text goes on with `x` and a hexadecimal digit. -/
def startsHex : Text → Bool
  | c :: d :: _ => (c = 'x' || c = 'X') && isHexDigit d
  | _ => false

variable (chars : Alphabet)

/-- The first token of a text, and what follows it. -/
def readToken : Text → Option (Token × Text)
  | [] => none
  | c :: rest =>
    if chars.isSpace c then
      some (.space (c :: rest.takeWhile chars.isSpace), rest.dropWhile chars.isSpace)
    else if c = '\'' then (Doubled.close c rest).map fun read => (.str read.1, read.2)
    else if c = '"' ∨ c = '`' then
      (Doubled.close c rest).map fun read => (.name c read.1, read.2)
    else if (c = 'x' ∨ c = 'X') ∧ rest.head? = some '\'' then
      match rest.tail.dropWhile isHexDigit with
      | '\'' :: more =>
        some (.hex (c :: '\'' :: (rest.tail.takeWhile isHexDigit ++ ['\''])), more)
      | _ => none
    else if c = '0' ∧ startsHex rest then
      some (.hex (c :: rest.take 1 ++ rest.tail.takeWhile isHexDigit),
        rest.tail.dropWhile isHexDigit)
    else if c.isDigit ∨ c = '.' ∧ rest.head?.any Char.isDigit then
      some (.number (number (c :: rest)).1, (number (c :: rest)).2)
    else if chars.isWord c then
      some (.word (c :: rest.takeWhile chars.isWord), rest.dropWhile chars.isWord)
    else some (.mark c, rest)

def lexFrom : ℕ → Text → Option (List Token)
  | _, [] => some []
  | 0, _ :: _ => none
  | n + 1, c :: rest => do
    let (token, more) ← readToken chars (c :: rest)
    let tokens ← lexFrom n more
    return token :: tokens

/-- The tokens of a text, `none` where a quote is not closed. -/
def lex (text : Text) : Option (List Token) := lexFrom chars text.length text

theorem signText_append (text : Text) : signText text ++ (Numeral.splitSign text).2 = text := by
  unfold signText
  split
  · rfl
  · rfl
  · rename_i hminus hplus
    unfold Numeral.splitSign
    split
    · exact (hminus _ rfl).elim
    · exact (hplus _ rfl).elim
    · rfl

theorem number_text (text : Text) : (number text).1 ++ (number text).2 = text := by
  have hrun : ∀ text, (Numeral.run text).1 ++ (Numeral.run text).2 = text := fun text =>
    takeWhile_append_dropWhile
  have hfrac : ∀ text, (fraction text).1 ++ (fraction text).2 = text := by
    intro text
    cases text with
    | nil => rfl
    | cons c rest =>
      rw [fraction]
      split_ifs
      · exact congrArg (c :: ·) (hrun rest)
      · rfl
  have hpower : ∀ text, (exponent text).1 ++ (exponent text).2 = text := by
    intro text
    cases text with
    | nil => rfl
    | cons c rest =>
      rw [exponent]
      split_ifs
      · rw [cons_append, append_assoc, hrun, signText_append]
      · rfl
  simp only [number]
  rw [append_assoc, append_assoc, hpower, hfrac, hrun]

variable {c : Char}

theorem number_ne_nil {rest : Text}
    (h : c.isDigit = true ∨ c = '.' ∧ rest.head?.any Char.isDigit = true) :
    (number (c :: rest)).1 ≠ [] := by
  unfold number Numeral.run
  obtain hc | ⟨rfl, -⟩ := h
  · simp [hc]
  · simp [fraction]

variable {chars}

variable {text : Text} {token : Token}

theorem readToken_text {rest : Text} (h : readToken chars text = some (token, rest)) :
    text = token.text ++ rest ∧ token.text ≠ [] := by
  cases text with
  | nil => cases h
  | cons c more =>
    rw [readToken] at h
    split_ifs at h with hspace hstr hname hhex hzero hnumber hword
    · obtain ⟨rfl, rfl⟩ := Prod.mk.inj (Option.some.inj h)
      simp [Token.text]
    · obtain ⟨⟨inner, rest'⟩, hread, heq⟩ := Option.map_eq_some_iff.mp h
      obtain ⟨rfl, rfl⟩ := Prod.mk.inj heq
      rw [Doubled.close_text hread, hstr]
      simp [Token.text]
    · obtain ⟨⟨inner, rest'⟩, hread, heq⟩ := Option.map_eq_some_iff.mp h
      obtain ⟨rfl, rfl⟩ := Prod.mk.inj heq
      rw [Doubled.close_text hread]
      simp [Token.text]
    · split at h
      · rename_i after hafter
        obtain ⟨rfl, rfl⟩ := Prod.mk.inj (Option.some.inj h)
        obtain ⟨tail, rfl⟩ : ∃ tail, more = '\'' :: tail := List.head?_eq_some_iff.mp hhex.2
        have hsplit := takeWhile_append_dropWhile (p := isHexDigit) (l := tail)
        rw [tail_cons] at hafter
        rw [hafter] at hsplit
        simp [Token.text, hsplit]
      · cases h
    · obtain ⟨rfl, rfl⟩ := Prod.mk.inj (Option.some.inj h)
      cases more with
      | nil => simp [Token.text]
      | cons d tail => simp [Token.text]
    · obtain ⟨rfl, rfl⟩ := Prod.mk.inj (Option.some.inj h)
      exact ⟨(number_text _).symm, number_ne_nil hnumber⟩
    · obtain ⟨rfl, rfl⟩ := Prod.mk.inj (Option.some.inj h)
      simp [Token.text]
    · obtain ⟨rfl, rfl⟩ := Prod.mk.inj (Option.some.inj h)
      simp [Token.text]

theorem readToken_shorter {rest : Text} (h : readToken chars text = some (token, rest)) :
    rest.length < text.length := by
  obtain ⟨htext, hne⟩ := readToken_text h
  have hpos := length_pos_of_ne_nil hne
  rw [htext, length_append]
  omega

theorem lexFrom_eq {turns : ℕ} (h : text.length ≤ turns) :
    lexFrom chars turns text = lex chars text := by
  have henough : ∀ {n m : ℕ} {text : Text}, text.length ≤ n → text.length ≤ m →
      lexFrom chars n text = lexFrom chars m text := by
    intro n
    induction n with
    | zero =>
      intro m text hn _
      obtain rfl := length_eq_zero_iff.mp (Nat.le_zero.mp hn)
      cases m <;> rfl
    | succ n ih =>
      intro m text hn hm
      cases text with
      | nil => cases m <;> rfl
      | cons c rest =>
        cases m with
        | zero => cases hm
        | succ m =>
          rw [lexFrom, lexFrom]
          cases hread : readToken chars (c :: rest) with
          | none => rfl
          | some read =>
            obtain ⟨token, more⟩ := read
            have hshorter := readToken_shorter hread
            have hsame := @ih m more (by omega) (by omega)
            exact congrArg (fun tokens => tokens.bind fun tokens => some (token :: tokens)) hsame
  exact henough h (Nat.le_refl _)

@[simp] theorem lex_nil : lex chars [] = some [] := rfl

theorem lex_cons {rest : Text} (h : readToken chars text = some (token, rest)) :
    lex chars text = (lex chars rest).map (token :: ·) := by
  have hshorter := readToken_shorter h
  cases text with
  | nil => cases h
  | cons c more =>
    have hrest : lexFrom chars more.length rest = lex chars rest :=
      lexFrom_eq (Nat.lt_succ_iff.mp hshorter)
    rw [lex, length_cons, lexFrom, h]
    change (lexFrom chars more.length rest).bind _ = _
    rw [hrest]
    cases lex chars rest <;> rfl

section
variable {rest : Text}

variable {c : Char}

variable (chars) in
theorem mark_solid (hc : c ∈ marks) : chars.isSpace c = false := (chars.mark_plain c hc).2

theorem word_solid (hc : chars.isWord c = true) : chars.isSpace c = false := by
  by_contra hspace
  rw [Bool.not_eq_false] at hspace
  rw [chars.space_plain c hspace] at hc
  cases hc

theorem word_not_mark (hc : chars.isWord c = true) : c ∉ marks := by
  intro hmark
  rw [(chars.mark_plain c hmark).1] at hc
  cases hc

theorem readToken_blank (hrest : ∀ c ∈ rest.head?, chars.isSpace c = false) :
    readToken chars (' ' :: rest) = some (.space [' '], rest) := by
  rw [readToken, if_pos chars.blank_space]
  cases rest with
  | nil => rfl
  | cons c rest =>
    have hc : ¬ chars.isSpace c = true := by simpa using hrest c rfl
    rw [takeWhile_cons_of_neg hc, dropWhile_cons_of_neg hc]

theorem readToken_str (text : Text) (hrest : rest.head? ≠ some '\'') :
    readToken chars ('\'' :: (Doubled.double '\'' text ++ '\'' :: rest)) =
      some (.str text, rest) := by
  rw [readToken, if_neg (by simp [mark_solid chars (c := '\'') (by decide)]), if_pos rfl,
    Doubled.close_double text hrest]
  rfl

theorem readToken_name {quote : Char} (hquote : quote = '"' ∨ quote = '`') (text : Text)
    (hrest : rest.head? ≠ some quote) :
    readToken chars (quote :: (Doubled.double quote text ++ quote :: rest)) =
      some (.name quote text, rest) := by
  have hmark : quote ∈ marks := by obtain rfl | rfl := hquote <;> decide
  have hne : quote ≠ '\'' := by obtain rfl | rfl := hquote <;> decide
  rw [readToken, if_neg (by simp [mark_solid chars hmark]), if_neg hne, if_pos hquote,
    Doubled.close_double text hrest]
  rfl

theorem readToken_hex (hc : c = 'x' ∨ c = 'X') {body : Text}
    (hbody : ∀ c ∈ body, isHexDigit c = true) :
    readToken chars (c :: '\'' :: (body ++ '\'' :: rest)) =
      some (.hex (c :: '\'' :: (body ++ ['\''])), rest) := by
  have hword : chars.isWord c = true :=
    chars.letter_word c (Or.inl (by obtain rfl | rfl := hc <;> decide))
  have hstr : c ≠ '\'' := by obtain rfl | rfl := hc <;> decide
  have hname : ¬ (c = '"' ∨ c = '`') := by obtain rfl | rfl := hc <;> decide
  have hquote : ¬ isHexDigit '\'' = true := by decide
  rw [readToken, if_neg (by simp [word_solid hword]), if_neg hstr, if_neg hname, if_pos ⟨hc, rfl⟩,
    tail_cons, dropWhile_append_of_pos hbody, dropWhile_cons_of_neg hquote,
    takeWhile_append_of_pos hbody, takeWhile_cons_of_neg hquote, append_nil]
  rfl

theorem readToken_word {text : Text} (hc : c.isDigit = false)
    (hword : ∀ d ∈ c :: text, chars.isWord d = true)
    (hrest : ∀ d ∈ rest.head?, chars.isWord d = false)
    (hhex : ¬ ((c = 'x' ∨ c = 'X') ∧ (text ++ rest).head? = some '\'')) :
    readToken chars (c :: (text ++ rest)) = some (.word (c :: text), rest) := by
  have hplain := hword c mem_cons_self
  have hmark := word_not_mark hplain
  have hstr : c ≠ '\'' := fun heq => hmark (by rw [heq]; decide)
  have hname : ¬ (c = '"' ∨ c = '`') := by
    rintro (rfl | rfl)
    · exact hmark (by decide)
    · exact hmark (by decide)
  have hzero : ¬ (c = '0' ∧ startsHex (text ++ rest) = true) := by
    rintro ⟨rfl, -⟩
    cases hc
  have hnumber : ¬ (c.isDigit = true ∨ c = '.' ∧ (text ++ rest).head?.any Char.isDigit = true) := by
    rintro (hdigit | ⟨rfl, -⟩)
    · rw [hc] at hdigit
      cases hdigit
    · exact hmark (by decide)
  have htext : ∀ d ∈ text, chars.isWord d = true := fun d hd => hword d (List.mem_cons_of_mem c hd)
  rw [readToken, if_neg (by simp [word_solid hplain]), if_neg hstr, if_neg hname, if_neg hhex,
    if_neg hzero, if_neg hnumber, if_pos hplain, List.takeWhile_append_of_pos htext,
    List.dropWhile_append_of_pos htext]
  cases rest with
  | nil => simp
  | cons d rest =>
    have hd : ¬ chars.isWord d = true := by simpa using hrest d rfl
    rw [List.takeWhile_cons_of_neg hd, List.dropWhile_cons_of_neg hd, List.append_nil]

theorem readToken_mark (hc : c ∈ marks) (hquote : c ∉ ['\'', '"', '`'])
    (hpoint : ¬ (c = '.' ∧ rest.head?.any Char.isDigit = true)) :
    readToken chars (c :: rest) = some (.mark c, rest) := by
  have hplain := chars.mark_plain c hc
  simp only [mem_cons, not_mem_nil, or_false, not_or] at hquote
  have hletter : ∀ d : Char, d.isAlpha = true → c ≠ d := by
    rintro d hd rfl
    rw [chars.letter_word c (Or.inl hd)] at hplain
    cases hplain.1
  have hdigit : ¬ c.isDigit = true := by
    intro hd
    rw [chars.digit_word c hd] at hplain
    cases hplain.1
  have hhex : ¬ ((c = 'x' ∨ c = 'X') ∧ rest.head? = some '\'') := by
    rintro ⟨rfl | rfl, -⟩
    · exact hletter 'x' (by decide) rfl
    · exact hletter 'X' (by decide) rfl
  have hzero : ¬ (c = '0' ∧ startsHex rest = true) := by
    rintro ⟨rfl, -⟩
    exact hdigit (by decide)
  rw [readToken, if_neg (by simp [hplain.2]), if_neg hquote.1, if_neg (not_or.mpr hquote.2),
    if_neg hhex, if_neg hzero, if_neg (not_or.mpr ⟨hdigit, hpoint⟩), if_neg (by simp [hplain.1])]

/-- A numeral without a sign: digits, then a fraction and an exponent where there are any. -/
structure Unsigned (whole frac power : Text) : Prop where
  whole_ne : whole ≠ []
  whole_digit : ∀ c ∈ whole, c.isDigit = true
  frac_form : frac = [] ∨ ∃ digits, frac = '.' :: digits ∧ ∀ c ∈ digits, c.isDigit = true
  power_form : power = [] ∨ ∃ (mark : Char) (negative : Bool) (digits : Text),
    power = mark :: (if negative then '-' else '+') :: digits ∧ (mark = 'e' ∨ mark = 'E') ∧
      digits ≠ [] ∧ ∀ c ∈ digits, c.isDigit = true

theorem number_unsigned {whole frac power : Text} (h : Unsigned whole frac power)
    (hrest : ∀ c ∈ rest.head?, c.isDigit = false ∧ c ≠ '.' ∧ c ≠ 'e' ∧ c ≠ 'E') :
    number (whole ++ (frac ++ (power ++ rest))) = (whole ++ frac ++ power, rest) := by
  have hpower : exponent (power ++ rest) = (power, rest) := by
    obtain rfl | ⟨mark, negative, digits, rfl, hmark, hne, hdigits⟩ := h.power_form
    · cases rest with
      | nil => rfl
      | cons c rest =>
        have hc := hrest c rfl
        rw [nil_append, exponent, if_neg fun heq => heq.1.elim hc.2.2.1 hc.2.2.2]
    · have hrun := Numeral.run_append hdigits fun c hc => (hrest c hc).1
      have hsign : (Numeral.splitSign ((if negative then '-' else '+') :: (digits ++ rest))).2 =
          digits ++ rest := by cases negative <;> rfl
      have htext : signText ((if negative then '-' else '+') :: (digits ++ rest)) =
          [if negative then '-' else '+'] := by cases negative <;> rfl
      rw [cons_append, cons_append, exponent, hsign, htext]
      rw [hrun, if_pos ⟨hmark, hne⟩]
      rfl
  have hstart : ∀ c ∈ (power ++ rest).head?, c.isDigit = false ∧ c ≠ '.' := by
    obtain rfl | ⟨mark, negative, digits, rfl, hmark, -⟩ := h.power_form
    · exact fun c hc => ⟨(hrest c hc).1, (hrest c hc).2.1⟩
    · intro c hc
      obtain rfl : mark = c := by simpa using hc
      obtain rfl | rfl := hmark <;> decide
  have hfrac : fraction (frac ++ (power ++ rest)) = (frac, power ++ rest) := by
    obtain rfl | ⟨digits, rfl, hdigits⟩ := h.frac_form
    · rw [nil_append]
      cases hnext : power ++ rest with
      | nil => rfl
      | cons c more => rw [fraction, if_neg (hstart c (by rw [hnext]; rfl)).2]
    · rw [cons_append, fraction, if_pos rfl,
        Numeral.run_append hdigits fun c hc => (hstart c hc).1]
  have hnext : ∀ c ∈ (frac ++ (power ++ rest)).head?, c.isDigit = false := by
    obtain rfl | ⟨digits, rfl, -⟩ := h.frac_form
    · exact fun c hc => (hstart c hc).1
    · intro c hc
      cases hc
      decide
  rw [number, Numeral.run_append h.whole_digit hnext]
  dsimp only
  rw [hfrac, hpower]

/-- A numeral before a character that cannot go on with it is one token. -/
theorem readToken_number {whole frac power : Text} (h : Unsigned whole frac power)
    (hrest : ∀ c ∈ rest.head?, chars.isWord c = false ∧ c ≠ '.') :
    readToken chars (whole ++ (frac ++ (power ++ rest))) =
      some (.number (whole ++ frac ++ power), rest) := by
  have hletter : ∀ c ∈ rest.head?, ∀ d : Char, d.isAlpha = true ∨ d.isDigit = true → c ≠ d := by
    rintro c hc d hd rfl
    have hword : chars.isWord c = true :=
      hd.elim (fun hd => chars.letter_word c (Or.inl hd)) (chars.digit_word c)
    rw [(hrest c hc).1] at hword
    cases hword
  have hnumber := @number_unsigned rest _ _ _ h (by
    intro c hc
    refine ⟨?_, (hrest c hc).2, hletter c hc 'e' (by decide), hletter c hc 'E' (by decide)⟩
    by_contra hdigit
    rw [Bool.not_eq_false] at hdigit
    exact hletter c hc c (Or.inr hdigit) rfl)
  obtain ⟨c, more, rfl⟩ := exists_cons_of_ne_nil h.whole_ne
  have hc := h.whole_digit c mem_cons_self
  have hword := chars.digit_word c hc
  have hmark := word_not_mark hword
  have hhex : ¬ ((c = 'x' ∨ c = 'X') ∧ (more ++ (frac ++ (power ++ rest))).head? = some '\'') := by
    rintro ⟨rfl | rfl, -⟩ <;> cases hc
  have hletters : ∀ d ∈ (more ++ (frac ++ (power ++ rest))).head?, ¬ (d = 'x' ∨ d = 'X') := by
    intro d hd
    cases more with
    | cons e more =>
      obtain rfl : e = d := by simpa using hd
      have he := h.whole_digit e (by simp)
      rintro (rfl | rfl) <;> cases he
    | nil =>
      obtain rfl | ⟨digits, rfl, -⟩ := h.frac_form
      · obtain rfl | ⟨mark, negative, digits, rfl, hmark, -⟩ := h.power_form
        · rintro (rfl | rfl)
          · exact hletter _ hd 'x' (by decide) rfl
          · exact hletter _ hd 'X' (by decide) rfl
        · obtain rfl : mark = d := by simpa using hd
          obtain rfl | rfl := hmark <;> decide
      · obtain rfl : '.' = d := by simpa using hd
        decide
  have hzero : ¬ (c = '0' ∧ startsHex (more ++ (frac ++ (power ++ rest))) = true) := by
    rintro ⟨-, hstarts⟩
    obtain ⟨d, hd, hx⟩ : ∃ d ∈ (more ++ (frac ++ (power ++ rest))).head?, d = 'x' ∨ d = 'X' := by
      cases hnext : more ++ (frac ++ (power ++ rest)) with
      | nil =>
        rw [hnext] at hstarts
        cases hstarts
      | cons d tail =>
        rw [hnext] at hstarts
        cases tail with
        | nil => cases hstarts
        | cons e tail =>
          simp only [startsHex, Bool.and_eq_true, Bool.or_eq_true, decide_eq_true_eq] at hstarts
          exact ⟨d, rfl, hstarts.1⟩
    exact hletters d hd hx
  rw [cons_append] at hnumber ⊢
  rw [readToken, if_neg (by simp [word_solid hword]), if_neg fun heq => hmark (by rw [heq]; decide),
    if_neg (by rintro (rfl | rfl) <;> cases hc), if_neg hhex, if_neg hzero, if_pos (Or.inl hc),
      hnumber]

end

variable (chars) in
/-- A text that reads as tokens before a blank, a closing parenthesis or the end. -/
def Spells (text : Text) (tokens : List Token) : Prop :=
  ∀ rest : Text, (∀ c ∈ rest.head?, c = ' ' ∨ c = ')') →
    lex chars (text ++ rest) = (lex chars rest).map (tokens ++ ·)

theorem ending_ne {rest : Text} (hrest : ∀ c ∈ rest.head?, c = ' ' ∨ c = ')') :
    ∀ c ∈ rest.head?, c ∉ ['.', '\'', '"', '`'] := by
  intro c hc
  obtain rfl | rfl := hrest c hc <;> decide

variable (chars) in
theorem ending_plain {rest : Text} (hrest : ∀ c ∈ rest.head?, c = ' ' ∨ c = ')') :
    ∀ c ∈ rest.head?, chars.isWord c = false := by
  intro c hc
  obtain rfl | rfl := hrest c hc
  · exact chars.space_plain ' ' chars.blank_space
  · exact (chars.mark_plain ')' (by decide)).1

theorem spells_token {text : Text} {token : Token}
    (h : ∀ rest : Text, (∀ c ∈ rest.head?, c = ' ' ∨ c = ')') →
      readToken chars (text ++ rest) = some (token, rest)) : Spells chars text [token] := by
  intro rest hrest
  exact lex_cons (h rest hrest)

variable {tokens : List Token}

theorem Spells.lex (h : Spells chars text tokens) : lex chars text = some tokens := by
  have hlex := h [] (by simp)
  rw [List.append_nil, lex_nil] at hlex
  rw [hlex, Option.map_some, List.append_nil]

theorem spells_str (text : Text) :
    Spells chars ('\'' :: (Doubled.double '\'' text ++ ['\''])) [.str text] := by
  apply spells_token
  intro rest hrest
  have hquote : rest.head? ≠ some '\'' := fun heq => ending_ne hrest _ heq (by decide)
  rw [List.cons_append, List.append_assoc]
  exact readToken_str text hquote

theorem spells_name (text : Text) :
    Spells chars ('"' :: (Doubled.double '"' text ++ ['"'])) [.name '"' text] := by
  apply spells_token
  intro rest hrest
  have hquote : rest.head? ≠ some '"' := fun heq => ending_ne hrest _ heq (by decide)
  rw [cons_append, append_assoc]
  exact readToken_name (Or.inl rfl) text hquote

theorem spells_hex {body : Text} (hbody : ∀ c ∈ body, isHexDigit c = true) :
    Spells chars ('X' :: '\'' :: (body ++ ['\''])) [.hex ('X' :: '\'' :: (body ++ ['\'']))] := by
  apply spells_token
  intro rest _
  rw [cons_append, cons_append, append_assoc]
  exact readToken_hex (Or.inr rfl) hbody

theorem spells_number {whole frac power : Text} (h : Unsigned whole frac power) :
    Spells chars (whole ++ frac ++ power) [.number (whole ++ frac ++ power)] := by
  apply spells_token
  intro rest hrest
  rw [append_assoc, append_assoc]
  apply readToken_number h
  intro c hc
  refine ⟨ending_plain chars hrest c hc, ?_⟩
  rintro rfl
  exact ending_ne hrest _ hc (by decide)

theorem spells_mark (hc : c ∈ marks) (hquote : c ∉ ['\'', '"', '`', '.'])
    (h : Spells chars text tokens) : Spells chars (c :: text) (.mark c :: tokens) := by
  intro rest hrest
  have hmark : readToken chars (c :: (text ++ rest)) = some (.mark c, text ++ rest) := by
    apply readToken_mark hc
    · intro hmem
      exact hquote (by simp only [mem_cons] at hmem ⊢; tauto)
    · rintro ⟨rfl, -⟩
      exact hquote (by decide)
  rw [cons_append, lex_cons hmark, h rest hrest, Option.map_map]
  rfl

theorem readToken_letters {rest : Text} (hword : ∀ d ∈ c :: text, d.isAlpha = true)
    (hx : c ≠ 'x' ∧ c ≠ 'X') (hrest : ∀ d ∈ rest.head?, chars.isWord d = false) :
    readToken chars (c :: (text ++ rest)) = some (.word (c :: text), rest) :=
  readToken_word (Text.isDigit_of_isAlpha (hword c mem_cons_self))
    (fun d hd => chars.letter_word d (Or.inl (hword d hd))) hrest
    fun hhex => hhex.1.elim hx.1 hx.2

theorem spells_word (hword : ∀ d ∈ c :: text, d.isAlpha = true) (hx : c ≠ 'x' ∧ c ≠ 'X') :
    Spells chars (c :: text) [.word (c :: text)] := by
  apply spells_token
  intro rest hrest
  exact readToken_letters hword hx (ending_plain chars hrest)

theorem Spells.blank {first last : Text} {firstTokens lastTokens : List Token}
    (hfirst : Spells chars first firstTokens) (hlast : Spells chars last lastTokens)
    (hsolid : ∃ c more, last = c :: more ∧ chars.isSpace c = false) :
    Spells chars (first ++ ' ' :: last) (firstTokens ++ .space [' '] :: lastTokens) := by
  obtain ⟨c, more, rfl, hc⟩ := hsolid
  intro rest hrest
  have hblank : readToken chars (' ' :: (c :: more ++ rest)) =
      some (.space [' '], c :: more ++ rest) := by
    apply readToken_blank
    rintro d ⟨rfl⟩
    exact hc
  rw [append_assoc, cons_append, hfirst _ (by rintro d ⟨rfl⟩; exact Or.inl rfl),
    lex_cons hblank, hlast rest hrest]
  cases Ansi.lex chars rest with
  | none => rfl
  | some tokens => simp

theorem Spells.parenthesised (h : Spells chars text tokens) :
    Spells chars ('(' :: (text ++ [')'])) (.mark '(' :: (tokens ++ [.mark ')'])) := by
  apply spells_mark (by decide) (by decide)
  intro rest _
  have hclose : readToken chars (')' :: rest) = some (.mark ')', rest) :=
    readToken_mark (by decide) (by decide) (by simp)
  rw [append_assoc, singleton_append, h _ (by rintro d ⟨rfl⟩; exact Or.inr rfl),
    lex_cons hclose]
  cases Ansi.lex chars rest with
  | none => rfl
  | some tokens => simp

theorem Spells.call {word : Text} (hword : ∀ d ∈ c :: word, d.isAlpha = true)
    (hx : c ≠ 'x' ∧ c ≠ 'X') (h : Spells chars text tokens) :
    Spells chars (c :: (word ++ '(' :: (text ++ [')'])))
      (.word (c :: word) :: .mark '(' :: (tokens ++ [.mark ')'])) := by
  intro rest hrest
  have hread : readToken chars (c :: (word ++ ('(' :: (text ++ [')']) ++ rest))) =
      some (.word (c :: word), '(' :: (text ++ [')']) ++ rest) := by
    apply readToken_letters hword hx
    rintro d ⟨rfl⟩
    exact (chars.mark_plain '(' (by decide)).1
  rw [cons_append, append_assoc, lex_cons hread, h.parenthesised rest hrest]
  cases Ansi.lex chars rest with
  | none => rfl
  | some tokens => rfl

end DeltaSwamp.Ansi
