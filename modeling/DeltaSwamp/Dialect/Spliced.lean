import DeltaSwamp.Dialect.Contained

/-!
# A fragment in a statement

The steps put together: an accepted text is a group of its own in every
statement, unless `-` stands right before `->`.
-/

namespace DeltaSwamp.Dialect

section
variable {chars : Chars} {repr : List Char → String}

theorem nameBody_append {body : List Char} (hbody : NameText body) (rest : List Char) :
    nameBody (body ++ rest) ≠ none := by
  induction hbody with
  | close =>
    cases rest with
    | nil => simp [nameBody]
    | cons d ds =>
      simp only [List.cons_append, List.nil_append, nameBody, if_true]
      split
      · split <;> simp
      · simp
  | @plain c cs hc hcs ih =>
    cases happend : cs ++ rest with
    | nil => cases hcs <;> simp at happend
    | cons d ds =>
      rw [happend] at ih
      simp only [List.cons_append, happend, nameBody, hc, if_false, Read.after]
      simpa using ih
  | @doubled cs _ ih =>
    simp only [List.cons_append, nameBody, if_true]
    split <;> simp

variable {token : Tok}

theorem Shape.mark {rest : List Char} {c : Char} (h : Shape chars token rest)
    (hhead : token.text.head? = some c) (hmark : c ∈ marks) (hplain : c ∉ ['\'', '"', '.']) :
    (token.kind = .op ∧ token.text ∈ operators) ∨
      (token.kind = .other ∧ token.text = [c] ∧ [c] ∉ operators) ∨
      (token.kind = .bq ∧ c = '`' ∧ ∃ body, token.text = '`' :: body ∧ NameText body) := by
  have hword := not_word chars hmark
  have hspace := chars.mark_solid c hmark
  simp only [List.mem_cons, List.not_mem_nil, or_false, not_or] at hplain
  unfold Shape at h
  cases hkind : token.kind <;> rw [hkind] at h <;> dsimp only at h
  case ws =>
    have hc := h.2 c (List.mem_of_mem_head? hhead)
    rw [hspace] at hc
    cases hc
  case str =>
    obtain ⟨body, htext, -⟩ := h
    rw [htext] at hhead
    exact absurd (Option.some.inj hhead).symm hplain.1
  case dstr =>
    obtain ⟨body, htext, -⟩ := h
    rw [htext] at hhead
    exact absurd (Option.some.inj hhead).symm hplain.2.1
  case bq =>
    obtain ⟨body, htext, hbody, -⟩ := h
    refine Or.inr (Or.inr ⟨rfl, ?_, body, htext, hbody⟩)
    rw [htext] at hhead
    exact (Option.some.inj hhead).symm
  case num =>
    obtain ⟨d, ds, htext, hd, -⟩ := h
    rw [htext] at hhead
    obtain rfl : d = c := Option.some.inj hhead
    rw [hword] at hd
    rcases hd with hd | hd
    · cases hd
    · exact absurd hd hplain.2.2
  case word =>
    have hc := h.2 c (List.mem_of_mem_head? hhead)
    rw [hword] at hc
    cases hc
  case op => exact Or.inl ⟨rfl, h⟩
  case other =>
    obtain ⟨d, htext, -, hop⟩ := h
    rw [htext] at hhead
    obtain rfl : d = c := Option.some.inj hhead
    exact Or.inr (Or.inl ⟨rfl, htext, hop⟩)

variable {text : List Char} {tokens : List Tok}

theorem Lexed.head {c : Char} (h : Lexed chars text tokens) (hhead : text.head? = some c) :
    ∃ token rest after, tokens = token :: after ∧ text = token.text ++ rest ∧
      Shape chars token rest ∧ token.text.head? = some c := by
  cases h with
  | nil => cases hhead
  | @cons token rest after hshape _ =>
    refine ⟨token, rest, after, rfl, rfl, hshape, ?_⟩
    cases htext : token.text with
    | nil => exact absurd htext hshape.text_ne_nil
    | cons d ds =>
      rw [htext] at hhead
      exact hhead

theorem operator_minus : ∀ text ∈ operators, text.head? = some '-' → text = ['-'] ∨
    text = ['-', '>'] := by
  decide

theorem operator_star : ∀ text ∈ operators, text.head? = some '*' → text = ['*'] := by
  decide

theorem operator_not_name : ∀ text ∈ operators, text.head? ≠ some '`' := by
  decide

variable {stack last : List Char}

theorem checkTokens_cons (h : checkTokens repr stack (token :: tokens) = .ok last) :
    ∃ next, checkToken repr stack token tokens.head? = .ok next ∧
      checkTokens repr next tokens = .ok last := by
  unfold checkTokens at h
  cases hnext : checkToken repr stack token tokens.head? with
  | error why => rw [hnext] at h; cases h
  | ok next => rw [hnext] at h; exact ⟨next, rfl, h⟩

theorem checkToken_no_comment {next : List Char} {after : Option Tok} (hkind : token.kind = .op)
    (h : checkToken repr stack token after = .ok next) : isComment token after = false := by
  by_contra hcomment
  rw [Bool.not_eq_false] at hcomment
  unfold checkToken at h
  rw [hkind] at h
  simp [hcomment] at h

theorem isOp_kind {symbols : List (List Char)} (h : token.isOp symbols = true) :
    token.kind = .op := by
  simp only [Tok.isOp, Bool.and_eq_true, beq_iff_eq] at h
  exact h.1

variable {mode : Mode}

/-- After an accepted token nothing joins up with the next one, unless it is `->` after `-`. -/
theorem Passed.ready {next : Mode} {rest : List Char} {middle : List Char} {out : List Lexeme}
    (hpassed : Passed chars mode token out next) (hshape : Shape chars token rest)
    (hrest : Lexed chars rest tokens)
    (hcheck : checkToken repr stack token tokens.head? = .ok middle)
    (hafter : checkTokens repr middle tokens = .ok last)
    (hdash : ∀ second after, tokens = second :: after →
      (token.isOp [['-']] && second.isOp [['-', '>']]) = false) : Ready next rest := by
  refine ⟨hpassed.outside, ?_, ?_, ?_⟩
  · intro hnext hhead
    have htoken := hpassed.minus hnext
    obtain ⟨second, rest', after, rfl, -, hsecond, hfirst⟩ := hrest.head hhead
    have hcomment := checkToken_no_comment (isOp_kind htoken) hcheck
    have harrow := hdash second after rfl
    rcases hsecond.mark hfirst (by decide) (by decide) with
      ⟨hkind, hop⟩ | ⟨-, htext, hop⟩ | ⟨-, h, -⟩
    · rcases operator_minus _ hop hfirst with htext | htext
      · simp [isComment, Tok.isOp, hkind, htext] at hcomment
        simp [Tok.isOp] at htoken
        simp [htoken] at hcomment
      · simp [htoken] at harrow
        simp [Tok.isOp, hkind, htext] at harrow
    · exact absurd hop (by decide)
    · exact absurd h (by decide)
  · intro hnext hhead
    have htoken := hpassed.slash hnext
    obtain ⟨second, rest', after, rfl, -, hsecond, hfirst⟩ := hrest.head hhead
    have hcomment := checkToken_no_comment (isOp_kind htoken) hcheck
    rcases hsecond.mark hfirst (by decide) (by decide) with
      ⟨hkind, hop⟩ | ⟨-, htext, hop⟩ | ⟨-, h, -⟩
    · have htext := operator_star _ hop hfirst
      have hstar : second.isOp [['*']] = true := by simp [Tok.isOp, hkind, htext]
      simp [isComment, htoken, hstar] at hcomment
    · exact absurd hop (by decide)
    · exact absurd h (by decide)
  · intro read hnext hhead
    have hkind := hpassed.name read hnext
    obtain ⟨second, rest', after, rfl, hsplit, hsecond, hfirst⟩ := hrest.head hhead
    unfold Shape at hshape
    rw [hkind] at hshape
    obtain ⟨body, -, -, hunquoted⟩ := hshape
    have hnone := hunquoted hhead
    rcases hsecond.mark hfirst (by decide) (by decide) with ⟨-, hop⟩ | ⟨hother, htext, -⟩ |
      ⟨-, -, name, htext, hname⟩
    · exact operator_not_name _ hop hfirst
    · obtain ⟨_, hsecondCheck, -⟩ := checkTokens_cons hafter
      unfold checkToken at hsecondCheck
      rw [hother, htext] at hsecondCheck
      simp [quoteTexts] at hsecondCheck
    · rw [hsplit, htext] at hnone
      have hbody := nameBody_append hname rest'
      simp only [List.cons_append, quotedName, if_true, Read.after, Option.map_eq_none_iff] at hnone
      exact hbody hnone

theorem rawClash_cons {before : List Char} (h : rawClash chars before (token :: tokens) = false) :
    (isRawMark before && holdsOwnQuote token) = false ∧
      rawClash chars (wordRun chars before token.text) tokens = false := by
  rw [rawClash, Bool.or_eq_false_iff] at h
  exact h

theorem dashArrow_cons (h : dashArrow (token :: tokens) = false) :
    (∀ second after, tokens = second :: after →
      (token.isOp [['-']] && second.isOp [['-', '>']]) = false) ∧ dashArrow tokens = false := by
  cases tokens with
  | nil => exact ⟨by simp, rfl⟩
  | cons second after =>
    rw [dashArrow, Bool.or_eq_false_iff] at h
    refine ⟨?_, h.2⟩
    rintro second' after' heq
    cases heq
    exact h.1

theorem run_token_append {next : Mode} {out : List Lexeme} (rest : List Char)
    (hpassed : Passed chars mode token out next) :
    run chars mode (token.text ++ rest) =
      (out ++ (run chars next rest).1, (run chars next rest).2) := by
  rw [run_append, hpassed.ran]

theorem run_tokens (h : Lexed chars text tokens) (hready : Ready mode text)
    (hcheck : checkTokens repr stack tokens = .ok last)
    (hraw : rawClash chars mode.run tokens = false) (hdash : dashArrow tokens = false) :
    (run chars mode text).2.Outside ∧ scan stack (run chars mode text).1 = some last := by
  induction h generalizing mode stack with
  | nil =>
    simp only [checkTokens, Except.ok.injEq] at hcheck
    exact ⟨hready.outside, by rw [← hcheck]; rfl⟩
  | @cons token rest tokens hshape hrest ih =>
    obtain ⟨middle, htoken, hafter⟩ := checkTokens_cons hcheck
    obtain ⟨hrawToken, hrawRest⟩ := rawClash_cons hraw
    obtain ⟨hdashToken, hdashRest⟩ := dashArrow_cons hdash
    obtain ⟨out, next, hpassed, hscan⟩ := passed_token hshape hready htoken hrawToken
    rw [← hpassed.word] at hrawRest
    obtain ⟨houtside, hlast⟩ :=
      ih (hpassed.ready hshape hrest htoken hafter hdashToken) hafter hrawRest hdashRest
    rw [run_token_append rest hpassed]
    refine ⟨houtside, ?_⟩
    rw [scan_append, hscan]
    exact hlast

theorem scan_line (text : List Char) (escaped : Bool) (stack : List Char) :
    scan stack ((run chars (.line escaped) text).1 ++ (run chars (.line escaped) text).2.flush) =
      none := by
  induction text generalizing escaped with
  | nil => rfl
  | cons c cs ih =>
    rw [run_cons]
    by_cases hgoesOn : c = '\n' ∧ escaped = true
    · simpa [step, hgoesOn] using ih false
    · by_cases hends : c = '\n' ∨ c = '\r'
      · simp [step, hgoesOn, hends, scan_cons, scanOne]
      · simpa [step, hgoesOn, hends] using ih (c == '\\')

theorem scan_prefix_none {first last : List Lexeme} {middle : List Char}
    (hfirst : scan stack first = some middle) (hlast : scan middle last = none) :
    scan stack (first ++ last) = none := by
  rw [scan_append, hfirst]
  exact hlast

theorem run_dashArrow (h : Lexed chars text tokens) (hready : Ready mode text)
    (hcheck : checkTokens repr stack tokens = .ok last)
    (hraw : rawClash chars mode.run tokens = false) (hdash : dashArrow tokens = true) :
    scan stack ((run chars mode text).1 ++ (run chars mode text).2.flush) = none := by
  induction h generalizing mode stack with
  | nil => cases hdash
  | @cons token rest tokens hshape hrest ih =>
    obtain ⟨middle, htoken, hafter⟩ := checkTokens_cons hcheck
    obtain ⟨hrawToken, hrawRest⟩ := rawClash_cons hraw
    cases htokens : tokens with
    | nil => rw [htokens] at hdash; cases hdash
    | cons second after =>
      by_cases hpair : (token.isOp [['-']] && second.isOp [['-', '>']]) = true
      · simp only [Tok.isOp, Bool.and_eq_true, beq_iff_eq, List.contains_cons,
          List.contains_nil, Bool.or_false] at hpair
        rw [htokens] at hrest
        cases hrest with
        | @cons _ rest' _ hsecond hrest' =>
          rw [hpair.1.2] at hready ⊢
          rw [hpair.2.2]
          have hminus := step_minus chars hready
          have hline : step chars .minus '-' = ([], .line false) := rfl
          have hflush := flush_neutral hready.outside stack
          simp only [List.cons_append, List.nil_append]
          rw [run_cons, hminus]
          dsimp only
          rw [run_cons, hline]
          dsimp only
          rw [List.append_assoc]
          exact scan_prefix_none hflush (scan_line _ _ _)
      · have hdashRest : dashArrow tokens = true := by
          rw [htokens, dashArrow, Bool.or_eq_true] at hdash
          rw [htokens]
          exact hdash.resolve_left hpair
        obtain ⟨out, next, hpassed, hscan⟩ := passed_token hshape hready htoken hrawToken
        rw [← hpassed.word] at hrawRest
        have hnext : Ready next rest := by
          refine hpassed.ready hshape hrest htoken hafter ?_
          intro second' after' heq
          rw [htokens] at heq
          cases heq
          simpa using hpair
        have hlast := ih hnext hafter hrawRest hdashRest
        rw [run_token_append rest hpassed, List.append_assoc]
        exact scan_prefix_none hscan hlast

theorem accepted_scan {limit : Nat} {what : String}
    (haccepted : checkExpression chars repr limit text what = .ok ())
    (hraw : rawClash chars [] (tokenize chars text) = false)
    (hdash : dashArrow (tokenize chars text) = false) :
    (run chars .plain text).2.Outside ∧ scan [] (lexemes chars text) = some [] := by
  have hready : Ready .plain text := Calm.ready (Or.inl rfl) text
  obtain ⟨houtside, hscan⟩ :=
    run_tokens (tokenize_lexed text) hready (checkExpression_ok haccepted).1 hraw hdash
  refine ⟨houtside, ?_⟩
  rw [lexemes, scan_append, hscan]
  exact flush_neutral houtside []

/-- An accepted text none of whose literals the lexers read differently stays one expression
exactly where `-` is never right before `->`, and nothing but a keyword's suffix follows the
expression it starts with. -/
theorem stays_one_iff {limit : Nat} {text : List Char} {what : String}
    (haccepted : checkExpression chars repr limit text what = .ok ())
    (hraw : rawClash chars [] (tokenize chars text) = false) :
    Contained chars text ∧ OneExpression chars limit text ↔
      dashArrow (tokenize chars text) = false ∧ ¬ operatorTail chars limit text := by
  rw [oneExpression_iff haccepted]
  apply and_congr_left
  intro _
  constructor
  · intro hcontained
    by_contra hdash
    rw [Bool.not_eq_false] at hdash
    have hready : Ready .plain text := Calm.ready (Or.inl rfl) text
    have hnone :=
      run_dashArrow (tokenize_lexed text) hready (checkExpression_ok haccepted).1 hraw hdash
    have hbalanced := hcontained.balanced
    rw [lexemes, hnone] at hbalanced
    cases hbalanced
  · intro hdash
    obtain ⟨houtside, hscan⟩ := accepted_scan haccepted hraw hdash
    exact ⟨lexemes_spliced houtside, hscan⟩

end

/-- The classes on ASCII. -/
def ascii : Chars where
  isSpace c := c == ' ' || c == '\t' || c == '\n' || c == '\r'
  isDigit c := c.isDigit
  isWord c := c.isAlphanum || c == '_'
  upper := List.map Char.toUpper
  digit_word c h := by simp [Char.isAlphanum, h]
  letter_word c h := by rcases h with h | h <;> simp [Char.isAlphanum, h]
  space_plain c h := by
    simp only [Bool.or_eq_true, beq_iff_eq] at h
    rcases h with ((rfl | rfl) | rfl) | rfl <;> decide
  mark_plain := by decide
  mark_solid := by decide

theorem stays_one_iff_sum :
    Contained ascii ['1', '+', '1'] ∧ OneExpression ascii 9 ['1', '+', '1'] ↔
      dashArrow (tokenize ascii ['1', '+', '1']) = false ∧
        ¬ operatorTail ascii 9 ['1', '+', '1'] :=
  @stays_one_iff ascii String.ofList 9 _ "" (by decide) (by decide)

/-- `1 --> 0` is accepted, and a comment in Spark. -/
theorem accepted_comment :
    checkExpression ascii String.ofList 9 ['1', ' ', '-', '-', '>', ' ', '0'] "" = .ok () ∧
      ¬ Contained ascii ['1', ' ', '-', '-', '>', ' ', '0'] := by
  refine ⟨by decide, ?_⟩
  intro hcontained
  exact absurd hcontained.balanced (by decide)

end DeltaSwamp.Dialect
