import DeltaSwamp.Dialect.Segments
import DeltaSwamp.Result

/-!
# Literals in a predicate

The predicate parser takes a run of literals as one string value, the one every other
reader takes from it.
-/

namespace DeltaSwamp.Predicate.Lexer

open List

open Dialect (Chars Read LiteralText unescape textOf SparkToken SparkTokens isLiteral Joined
  moreTokens runValue goesOn)

/-- Whether an escape of the text is of a line feed. -/
def escapesLine : List Char → Bool
  | c :: d :: cs => if c = '\\' then d = '\n' || escapesLine cs else escapesLine (d :: cs)
  | _ => false

section
variable {chars : Chars}

variable {quote : Char} {text : List Char} {read : List Char × List Char}

theorem literalBody_split (h : literalBody quote text = some read) :
    text = read.1 ++ read.2 ∧ read.1 ≠ [] := by
  fun_induction literalBody quote text generalizing read with
  | case1 => cases h
  | case2 => cases h; exact ⟨rfl, by simp⟩
  | case3 => cases h
  | case4 => cases h; exact ⟨rfl, by simp⟩
  | case5 => cases h
  | case6 d cs hquote hline ih =>
    obtain ⟨last, hread, hbody⟩ := Dialect.Read.after_eq (h : _ = some (read.1, read.2))
    obtain ⟨hsplit, -⟩ := ih hread
    exact ⟨by simp [hbody, ← hsplit], by simp [hbody]⟩
  | case7 c d cs hquote hescape ih =>
    obtain ⟨last, hread, hbody⟩ := Dialect.Read.after_eq (h : _ = some (read.1, read.2))
    obtain ⟨hsplit, -⟩ := ih hread
    exact ⟨by simp [hbody, ← hsplit], by simp [hbody]⟩

theorem literal_split (h : literal quote text = some read) :
    text = read.1 ++ read.2 ∧ read.1.head? = some quote := by
  cases text with
  | nil => cases h
  | cons c cs =>
    rw [literal] at h
    split_ifs at h with hquote
    obtain ⟨last, hread, hbody⟩ := Dialect.Read.after_eq (h : _ = some (read.1, read.2))
    obtain ⟨hsplit, -⟩ := literalBody_split hread
    exact ⟨by simp [hbody, ← hsplit], by simp [hbody, hquote]⟩

theorem quotedName_split (h : quotedName text = some read) :
    text = read.1 ++ read.2 ∧ read.1 ≠ [] := by
  unfold quotedName at h
  rw [Option.filter_eq_some_iff] at h
  obtain ⟨hsplit, last, hbody, -⟩ := Dialect.quotedName_read (h.1 : _ = some (read.1, read.2))
  exact ⟨hsplit, by simp [hbody]⟩

theorem operators_ne_nil : ∀ symbol ∈ operators, symbol ≠ [] := by decide

theorem operator_split (h : operator text = some read) : text = read.1 ++ read.2 ∧ read.1 ≠ [] := by
  unfold operator at h
  rw [Option.map_eq_some_iff] at h
  obtain ⟨symbol, hfind, rfl⟩ := h
  have hfirst := List.find?_some hfind
  rw [List.isPrefixOf_iff_prefix] at hfirst
  obtain ⟨last, rfl⟩ := hfirst
  exact ⟨by simp, operators_ne_nil _ (mem_of_find?_eq_some hfind)⟩

theorem digits_split (h : digits chars text = some read) :
    text = read.1 ++ read.2 ∧ read.1 ≠ [] := by
  have hsplit := takeWhile_append_dropWhile (p := chars.isDigit) (l := text)
  unfold digits at h
  cases hfirst : text.takeWhile chars.isDigit with
  | nil =>
    rw [hfirst] at h hsplit
    cases hrest : text.dropWhile chars.isDigit with
    | nil =>
      rw [hrest] at h
      cases h
    | cons c rest =>
      rw [hrest] at h hsplit
      by_cases hpoint : c = '.'
      · subst hpoint
        simp only [Option.ite_none_left_eq_some] at h
        obtain ⟨-, h⟩ := h
        cases h
        exact ⟨by simp [← hsplit], by simp⟩
      · simp [hpoint] at h
  | cons d ds =>
    rw [hfirst] at h hsplit
    cases hrest : text.dropWhile chars.isDigit with
    | nil =>
      rw [hrest] at h hsplit
      cases h
      exact ⟨hsplit.symm, by simp⟩
    | cons c rest =>
      rw [hrest] at h hsplit
      by_cases hpoint : c = '.'
      · subst hpoint
        cases h
        exact ⟨by simp [← hsplit], by simp⟩
      · simp [hpoint] at h
        subst h
        exact ⟨hsplit.symm, by simp⟩

theorem numberSuffix_split (text : List Char) :
    text = (numberSuffix text).1 ++ (numberSuffix text).2 := by
  cases text with
  | nil => rfl
  | cons c cs =>
    rw [numberSuffix]
    split_ifs <;> rfl

theorem number_split (h : number chars text = some read) :
    text = read.1 ++ read.2 ∧ read.1 ≠ [] := by
  unfold number at h
  rw [Option.map_eq_some_iff] at h
  obtain ⟨first, hdigits, rfl⟩ := h
  obtain ⟨hsplit, hne⟩ := digits_split hdigits
  have hsign := (Dialect.sign_read text).1
  have hpower := (Dialect.exponent_read chars first.2).1
  have hsuffix := numberSuffix_split (Dialect.exponent chars first.2).2
  refine ⟨?_, by simp [hne]⟩
  conv_lhs => rw [hsign, hsplit, hpower, hsuffix]
  simp

variable {token : Tok} {rest : List Char}

theorem ofKind_eq {kind : Kind} {read : Read} (h : ofKind kind read = some (token, rest)) :
    read = some (token.text, rest) ∧ token.kind = kind := by
  unfold ofKind at h
  rw [Option.map_eq_some_iff] at h
  obtain ⟨found, hread, heq⟩ := h
  simp only [Prod.mk.injEq] at heq
  obtain ⟨rfl, rfl⟩ := heq
  exact ⟨hread, rfl⟩

/-- A token is the first characters after the white space; a string token's first is its quote. -/
theorem readToken_split (h : readToken chars text = some (token, rest)) :
    text.dropWhile chars.isSpace = token.text ++ rest ∧ token.text ≠ [] ∧
      (isString token = true → token.text.head? = some '\'' ∨ token.text.head? = some '"') := by
  unfold readToken at h
  simp only [Option.orElse_eq_orElse, Option.orElse_eq_or, Option.or_eq_some_iff] at h
  obtain h | ⟨-, h | ⟨-, h | ⟨-, h | ⟨-, h | ⟨-, h⟩⟩⟩⟩⟩ := h <;>
    obtain ⟨hread, hkind⟩ := ofKind_eq h
  · obtain ⟨hsplit, hne⟩ := number_split hread
    exact ⟨hsplit, hne, by simp [isString, hkind]⟩
  · obtain ⟨hsplit, hhead⟩ := literal_split hread
    exact ⟨hsplit, by rintro hnil; simp [hnil] at hhead, fun _ => Or.inl hhead⟩
  · obtain ⟨hsplit, hhead⟩ := literal_split hread
    exact ⟨hsplit, by rintro hnil; simp [hnil] at hhead, fun _ => Or.inr hhead⟩
  · obtain ⟨hsplit, hne⟩ := quotedName_split hread
    exact ⟨hsplit, hne, by simp [isString, hkind]⟩
  · obtain ⟨hsplit, hne⟩ := operator_split hread
    exact ⟨hsplit, hne, by simp [isString, hkind]⟩
  · obtain ⟨hsplit, hne, -⟩ := Dialect.word_read hread
    exact ⟨hsplit, hne, by simp [isString, hkind]⟩

theorem readToken_shorter (h : readToken chars text = some (token, rest)) :
    rest.length < text.length := by
  obtain ⟨hsplit, hne, -⟩ := readToken_split h
  have hlength := congrArg List.length hsplit
  have hshorter := List.length_dropWhile_le chars.isSpace text
  have hpos := List.length_pos_iff.mpr hne
  rw [List.length_append] at hlength
  omega

theorem tokensFrom_enough {turns : Nat} (hturns : text.length ≤ turns) :
    tokensFrom chars turns text = tokensFrom chars text.length text := by
  induction hlength : text.length using Nat.strong_induction_on generalizing text turns with
  | _ n ih =>
    cases text with
    | nil => subst hlength; cases turns <;> rfl
    | cons c text =>
      rw [hlength] at hturns
      rw [List.length_cons] at hlength
      obtain ⟨turns, rfl⟩ := Nat.exists_eq_add_one_of_ne_zero (by omega : turns ≠ 0)
      obtain ⟨n, rfl⟩ := Nat.exists_eq_add_one_of_ne_zero (by omega : n ≠ 0)
      rw [tokensFrom, tokensFrom]
      cases hread : readToken chars (c :: text) with
      | none => rfl
      | some read =>
        have hshorter := readToken_shorter (hread : _ = some (read.1, read.2))
        rw [List.length_cons] at hshorter
        dsimp only
        rw [ih read.2.length (by omega) (by omega) rfl,
          ← ih read.2.length (by omega) (by omega : read.2.length ≤ n) rfl]

theorem literalBody_append (hslash : quote ≠ '\\') {body : List Char} (h : LiteralText quote body)
    (hline : escapesLine body = false) (rest : List Char) :
    literalBody quote (body ++ rest) = some (body, rest) := by
  induction h with
  | close => cases rest <;> simp [literalBody]
  | @plain c cs hquote hescape htext ih =>
    obtain ⟨d, ds, hcons⟩ := htext.exists_cons rest
    obtain ⟨e, es, hbody⟩ := htext.exists_cons []
    rw [List.append_nil] at hbody
    rw [hbody, escapesLine, if_neg hescape, ← hbody] at hline
    rw [List.cons_append, hcons, literalBody, if_neg hquote, if_neg hescape, ← hcons, ih hline]
    rfl
  | @escaped c cs htext ih =>
    rw [escapesLine, if_pos rfl, Bool.or_eq_false_iff, decide_eq_false_iff_not] at hline
    rw [List.cons_append, List.cons_append, literalBody, if_neg hslash.symm, if_pos rfl,
      if_neg hline.1, ih hline.2]
    rfl

/-- The token of a literal in the parser's own kinds. -/
def lexed (token : Dialect.Tok) : Tok :=
  ⟨if token.kind = .str then .string else .dstring, token.text⟩

theorem isString_lexed (token : Dialect.Tok) : isString (lexed token) = true := by
  unfold lexed isString
  split_ifs <;> rfl

theorem number_quote (hquote : quote = '\'' ∨ quote = '"') (rest : List Char) :
    number chars (quote :: rest) = none := by
  have hdigit : chars.isDigit quote = false := by
    by_contra hdigit
    rw [Bool.not_eq_false] at hdigit
    have hword := chars.digit_word quote hdigit
    rw [chars.mark_plain quote (by obtain rfl | rfl := hquote <;> decide)] at hword
    cases hword
  have hsign : Dialect.sign (quote :: rest) = ([], quote :: rest) := by
    obtain rfl | rfl := hquote <;> rfl
  obtain rfl | rfl := hquote <;> simp [number, hsign, digits, hdigit]

theorem readToken_literal {token : Dialect.Tok} (h : SparkToken chars token)
    (hliteral : isLiteral token = true) (hline : escapesLine token.text = false)
    {gap : List Char} (hgap : gap.all chars.isSpace = true) (rest : List Char) :
    readToken chars (gap ++ token.text ++ rest) = some (lexed token, rest) := by
  have hshape := h.shape
  obtain ⟨c, cs, hfirst, hsolid⟩ := h.solid (Dialect.isLiteral_solid hliteral)
  have hskip : (gap ++ token.text ++ rest).dropWhile chars.isSpace = token.text ++ rest := by
    rw [append_assoc, dropWhile_append_of_pos (all_eq_true.mp hgap), hfirst]
    simp [hsolid]
  have hbody : ∀ {quote : Char} {body : List Char}, quote ≠ '\\' → LiteralText quote body →
      token.text = quote :: body → escapesLine body = false := by
    intro quote body hslash htext heq
    obtain ⟨d, ds, hcons⟩ := htext.exists_cons []
    rw [append_nil] at hcons
    rw [heq, hcons, escapesLine, if_neg hslash] at hline
    rwa [hcons]
  unfold readToken
  rw [hskip]
  dsimp only
  unfold Dialect.Shape at hshape
  obtain hkind | hkind := Dialect.isLiteral_iff.mp hliteral <;> rw [hkind] at hshape
  · obtain ⟨body, heq, htext⟩ := hshape
    rw [heq, cons_append, number_quote (Or.inl rfl), literal, if_pos rfl,
      literalBody_append (by decide) htext (hbody (by decide) htext heq)]
    simp [ofKind, Read.after, lexed, hkind, heq]
  · obtain ⟨body, heq, htext⟩ := hshape
    rw [heq, cons_append, number_quote (Or.inr rfl), literal, if_neg (by decide), literal,
      if_pos rfl, literalBody_append (by decide) htext (hbody (by decide) htext heq)]
    simp [ofKind, Read.after, lexed, hkind, heq]

theorem tokensFrom_literal {token : Dialect.Tok} (h : SparkToken chars token)
    (hliteral : isLiteral token = true) (hline : escapesLine token.text = false)
    {gap : List Char} (hgap : gap.all chars.isSpace = true) (rest : List Char) :
    tokensFrom chars (gap ++ token.text ++ rest).length (gap ++ token.text ++ rest) =
      (tokensFrom chars rest.length rest).map (lexed token :: ·) := by
  obtain ⟨d, ds, hcons⟩ : ∃ d ds, gap ++ token.text ++ rest = d :: ds := by
    obtain ⟨c, cs, hfirst, -⟩ := h.solid (Dialect.isLiteral_solid hliteral)
    apply exists_cons_of_ne_nil
    simp [hfirst]
  have hread := readToken_literal h hliteral hline hgap rest
  rw [hcons] at hread ⊢
  have hshorter := readToken_shorter hread
  rw [length_cons] at hshorter ⊢
  rw [tokensFrom, hread]
  dsimp only
  rw [tokensFrom_enough (by omega)]

theorem blank_gap {gap : List Dialect.Tok} (hspace : ∀ token ∈ gap, token.kind = .ws)
    (hgap : ∀ token ∈ gap, SparkToken chars token) : (textOf gap).all chars.isSpace = true := by
  rw [all_eq_true]
  intro c hc
  obtain ⟨token, htoken, hmem⟩ := mem_flatMap.mp hc
  have hshape := (hgap token htoken).shape
  unfold Dialect.Shape at hshape
  rw [hspace token htoken] at hshape
  exact hshape.2 c hmem

theorem textOf_append (first last : List Dialect.Tok) :
    textOf (first ++ last) = textOf first ++ textOf last := flatMap_append

variable {more : List (List Dialect.Tok × Dialect.Tok)}

theorem tokensFrom_more (hmore : ∀ next ∈ more, Joined next)
    (htokens : ∀ token ∈ moreTokens more, SparkToken chars token)
    (hline : ∀ next ∈ more, escapesLine next.2.text = false) (rest : List Char) :
    tokensFrom chars (textOf (moreTokens more) ++ rest).length (textOf (moreTokens more) ++ rest) =
      (tokensFrom chars rest.length rest).map ((more.map fun next => lexed next.2) ++ ·) := by
  induction more with
  | nil =>
    have hid : (fun tokens : List Tok => [] ++ tokens) = id := rfl
    simp only [moreTokens, textOf, flatMap_nil, nil_append, map_nil]
    cases tokensFrom chars rest.length rest <;> rfl
  | cons next more ih =>
    obtain ⟨hspace, hliteral⟩ := hmore next (by simp)
    have hsplit : textOf (moreTokens (next :: more)) ++ rest =
        textOf next.1 ++ next.2.text ++ (textOf (moreTokens more) ++ rest) := by
      simp [moreTokens, textOf]
    have hmem : ∀ token ∈ next.1 ++ next.2 :: moreTokens more, SparkToken chars token := by
      simpa [moreTokens] using htokens
    rw [hsplit, tokensFrom_literal (hmem next.2 (by simp)) hliteral (hline next (by simp))
      (blank_gap hspace fun token htoken => hmem token (by simp [htoken])),
      ih (fun next hnext => hmore next (by simp [hnext]))
        (fun token htoken => hmem token (by simp [htoken]))
        fun next hnext => hline next (by simp [hnext])]
    cases tokensFrom chars rest.length rest <;> rfl

variable {first : Dialect.Tok}

theorem tokensFrom_run (hfirst : isLiteral first = true) (hmore : ∀ next ∈ more, Joined next)
    (htokens : ∀ token ∈ first :: moreTokens more, SparkToken chars token)
    (hline : escapesLine first.text = false ∧ ∀ next ∈ more, escapesLine next.2.text = false)
    (rest : List Char) :
    tokensFrom chars (textOf (first :: moreTokens more) ++ rest).length
        (textOf (first :: moreTokens more) ++ rest) =
      (tokensFrom chars rest.length rest).map
        (lexed first :: (more.map fun next => lexed next.2) ++ ·) := by
  have hblank : ([] : List Char).all chars.isSpace = true := rfl
  have hone := tokensFrom_literal (htokens first (by simp)) hfirst hline.1 hblank
    (textOf (moreTokens more) ++ rest)
  rw [tokensFrom_more hmore (fun token htoken => htokens token (by simp [htoken])) hline.2] at hone
  have hsplit : textOf (first :: moreTokens more) ++ rest =
      [] ++ first.text ++ (textOf (moreTokens more) ++ rest) := by
    simp [textOf]
  rw [hsplit, hone]
  cases tokensFrom chars rest.length rest <;> rfl

theorem rstrip_append {first last : List Char} {c : Char} (hlast : first.getLast? = some c)
    (hsolid : chars.isSpace c = false) :
    rstrip chars (first ++ last) = first ++ rstrip chars last := by
  obtain ⟨init, rfl⟩ : ∃ init, first = init ++ [c] := List.getLast?_eq_some_iff.mp hlast
  unfold rstrip List.rdropWhile
  rw [reverse_append, dropWhile_append]
  cases hrest : last.reverse.dropWhile chars.isSpace with
  | nil => simp [hsolid]
  | cons d ds => simp

theorem literal_last {body : List Char} (h : LiteralText quote body) :
    body.getLast? = some quote := by
  induction h with
  | close => rfl
  | plain _ _ htext ih => rw [List.getLast?_cons, ih]; rfl
  | escaped htext ih => rw [List.getLast?_cons, List.getLast?_cons, ih]; rfl

theorem literal_token_last {token : Dialect.Tok} (h : SparkToken chars token)
    (hliteral : isLiteral token = true) :
    ∃ c, token.text.getLast? = some c ∧ chars.isSpace c = false := by
  obtain ⟨quote, body, hquote, htext, hbody⟩ := h.literal hliteral
  refine ⟨quote, ?_, chars.mark_solid quote (by obtain rfl | rfl := hquote <;> decide)⟩
  rw [htext, List.getLast?_cons, literal_last hbody]
  rfl

theorem run_last (hfirst : isLiteral first = true) (hmore : ∀ next ∈ more, Joined next)
    (htokens : ∀ token ∈ first :: moreTokens more, SparkToken chars token) :
    ∃ c, (textOf (first :: moreTokens more)).getLast? = some c ∧ chars.isSpace c = false := by
  induction more using List.reverseRecOn with
  | nil => simpa [textOf, moreTokens] using literal_token_last (htokens first (by simp)) hfirst
  | append_singleton more next _ =>
    obtain ⟨c, hlast, hsolid⟩ := literal_token_last
      (htokens next.2 (by simp [moreTokens])) (hmore next (by simp)).2
    refine ⟨c, ?_, hsolid⟩
    have hsplit : textOf (first :: moreTokens (more ++ [next])) =
        textOf (first :: moreTokens more ++ next.1) ++ next.2.text := by
      simp [textOf, moreTokens]
    rw [hsplit, List.getLast?_append, hlast]
    rfl

variable {tokens : List Dialect.Tok}

theorem textOf_goesOn (h : SparkTokens chars tokens) (hgoes : goesOn tokens = false) :
    ∀ c ∈ ((textOf tokens).dropWhile chars.isSpace).head?,
      c ≠ '\'' ∧ c ≠ '"' := by
  induction tokens with
  | nil => simp [textOf]
  | cons t tokens ih =>
    have ht := h.each t (by simp)
    have hsplit : textOf (t :: tokens) = t.text ++ textOf tokens := rfl
    rw [hsplit]
    by_cases hspace : t.kind = .ws
    · have hblank : t.text.all chars.isSpace = true := by
        have hone : ∀ token ∈ [t], token.kind = .ws := by simpa using hspace
        simpa [textOf] using blank_gap hone (by simpa using ht)
      rw [← singleton_append, Dialect.goesOn_gap (by simpa using hspace)] at hgoes
      rw [dropWhile_append_of_pos (all_eq_true.mp hblank)]
      exact ih h.tail hgoes
    · obtain ⟨c, cs, htext, hsolid⟩ := ht.solid hspace
      rw [Dialect.goesOn_solid hspace] at hgoes
      rw [htext, cons_append, dropWhile_cons_of_neg (by simp [hsolid])]
      intro d hd
      simp only [List.head?_cons, Option.mem_def, Option.some.injEq] at hd
      subst hd
      by_cases hname : t.kind = .bq
      · obtain ⟨body, hbody, -⟩ := ht.name hname
        rw [hbody] at htext
        cases htext
        decide
      · have hbare := (ht.bare hgoes hname).2 c (by simp [htext])
        constructor
        · rintro rfl
          exact hbare (by decide)
        · rintro rfl
          exact hbare (by decide)

theorem tokenize_goesOn (h : SparkTokens chars tokens) (hgoes : goesOn tokens = false)
    {tail : List Tok} (htail : tokenize chars (textOf tokens) = .ok tail) :
    ∀ token ∈ tail.head?, isString token = false := by
  unfold tokenize at htail
  cases htext : rstrip chars (textOf tokens) with
  | nil =>
    rw [htext] at htail
    cases htail
    simp
  | cons c text =>
    rw [htext, length_cons, tokensFrom] at htail
    cases hread : readToken chars (c :: text) with
    | none =>
      rw [hread] at htail
      cases htail
    | some read =>
      rw [hread] at htail
      obtain ⟨more, -, hmore⟩ := Result.map_eq_ok_iff.mp htail
      subst hmore
      intro token htoken
      simp only [List.head?_cons, Option.mem_def, Option.some.injEq] at htoken
      subst htoken
      by_contra hstring
      rw [Bool.not_eq_false] at hstring
      obtain ⟨hsplit, hne, hquote⟩ := readToken_split (hread : _ = some (read.1, read.2))
      obtain ⟨d, ds, hhead⟩ := exists_cons_of_ne_nil hne
      obtain ⟨last, hlast⟩ := rdropWhile_prefix chars.isSpace (l := textOf tokens)
      have hnext : ((textOf tokens).dropWhile chars.isSpace).head? = some d := by
        rw [← hlast, ← rstrip, htext, dropWhile_append, hsplit, hhead]
        rfl
      obtain ⟨hsingle, hdouble⟩ := textOf_goesOn h hgoes d hnext
      have hmark := hquote hstring
      rw [hhead] at hmark
      simp only [List.head?_cons, Option.some.injEq] at hmark
      exact hmark.elim hsingle hdouble

/-- The parser reads a run, with what follows it, as the one string value the run holds. -/
theorem value_run (hfirst : isLiteral first = true) (hmore : ∀ next ∈ more, Joined next)
    (hgoes : goesOn tokens = false)
    (htokens : SparkTokens chars (first :: moreTokens more ++ tokens))
    (hline : escapesLine first.text = false ∧ ∀ next ∈ more, escapesLine next.2.text = false)
    {tail : List Tok} (htail : tokenize chars (textOf tokens) = .ok tail) :
    ∃ read, tokenize chars (textOf (first :: moreTokens more ++ tokens)) = .ok read ∧
      value chars read = .ok (.string (runValue first more), tail) := by
  have hrun : ∀ token ∈ first :: moreTokens more, SparkToken chars token := fun token htoken =>
    htokens.each token (mem_append_left _ htoken)
  obtain ⟨c, hlast, hsolid⟩ := run_last hfirst hmore hrun
  refine ⟨lexed first :: (more.map fun next => lexed next.2) ++ tail, ?_, ?_⟩
  · unfold tokenize at htail ⊢
    rw [textOf_append, rstrip_append hlast hsolid, tokensFrom_run hfirst hmore hrun hline, htail]
    rfl
  · have hnext := tokenize_goesOn htokens.append_right hgoes htail
    have hall : ∀ token ∈ more.map fun next => lexed next.2, isString token = true := by
      intro token htoken
      obtain ⟨next, -, rfl⟩ := mem_map.mp htoken
      exact isString_lexed next.2
    have htake : (tail.takeWhile isString) = [] ∧ tail.dropWhile isString = tail := by
      cases tail with
      | nil => exact ⟨rfl, rfl⟩
      | cons t tail => simp [hnext t (by simp)]
    have hkind : (lexed first).kind ≠ .number := by
      unfold lexed
      split_ifs <;> simp
    rw [cons_append, value, if_neg hkind, if_pos (isString_lexed first),
      takeWhile_append_of_pos hall, dropWhile_append_of_pos hall, htake.1, htake.2]
    simp [runValue, lexed, flatMap_map]

end
end DeltaSwamp.Predicate.Lexer
