import DeltaSwamp.Dialect.Spliced
import DeltaSwamp.Predicate.Lexer

/-!
# Runs of literals

Spark tokens cut into maximal runs of adjacent literals and the tokens between them,
and what it means that a text spells them for an engine that reads ANSI literals.

What `literal` writes is one token that decodes to its value, and every reader of
SQL text takes a literal or a quoted name from the same characters.
-/

namespace DeltaSwamp.Dialect

open List

section
variable {chars : Chars}

variable {c : Char}

theorem unescapeFrom_plain (hc : c ≠ '\\') (rest : List Char) :
    unescapeFrom 0 (c :: rest) = c.toNat :: unescapeFrom 0 rest := by
  simp [unescapeFrom, hc]

theorem unescapeFrom_escaped (hc : c = '\\' ∨ c = '\'') (rest : List Char) :
    unescapeFrom 0 ('\\' :: c :: rest) = c.toNat :: unescapeFrom 0 rest := by
  have hoctal : octal ((c :: rest).take 3) = none := by
    obtain rfl | rfl := hc <;>
      · rcases rest with _ | ⟨d, _ | ⟨e, more⟩⟩ <;> simp [octal]
  have hescape : escape (c :: rest) = ([c.toNat], 1) := by
    unfold escape
    rw [hoctal]
    obtain rfl | rfl := hc <;> rfl
  simp [unescapeFrom, hescape]

/-- What the two replacements of `literal` make of a character. -/
def escaped (c : Char) : List Char :=
  if c = '\\' ∨ c = '\'' then ['\\', c] else [c]

theorem sqlLiteral_eq (value : List Char) :
    sqlLiteral value = '\'' :: (value.flatMap escaped ++ ['\'']) := by
  simp only [sqlLiteral, replaceChar, cons_append, flatMap_assoc]
  congr 2
  refine flatMap_congr fun c _ => ?_
  by_cases hslash : c = '\\'
  · subst hslash
    decide
  · by_cases hquote : c = '\''
    · subst hquote
      decide
    · simp [escaped, hslash, hquote]

theorem inner_sqlLiteral (value : List Char) :
    inner (sqlLiteral value) = value.flatMap escaped := by
  simp [inner, sqlLiteral_eq]

theorem unescape_sqlLiteral (value : List Char) : unescape (sqlLiteral value) = points value := by
  rw [unescape, inner_sqlLiteral]
  induction value with
  | nil => rfl
  | cons c value ih =>
    rw [flatMap_cons, points, map_cons]
    by_cases hc : c = '\\' ∨ c = '\''
    · rw [escaped, if_pos hc, cons_append, singleton_append, unescapeFrom_escaped hc, ih]
      rfl
    · rw [escaped, if_neg hc, singleton_append, unescapeFrom_plain (by tauto), ih]
      rfl

theorem literalText_escaped (value : List Char) :
    LiteralText '\'' (value.flatMap escaped ++ ['\'']) := by
  induction value with
  | nil => exact .close
  | cons c value ih =>
    rw [flatMap_cons]
    by_cases hc : c = '\\' ∨ c = '\''
    · rw [escaped, if_pos hc]
      exact .escaped ih
    · rw [escaped, if_neg hc]
      exact .plain (by tauto) (by tauto) ih

variable {quote : Char} {body : List Char}

theorem LiteralText.exists_cons (h : LiteralText quote body) (rest : List Char) :
    ∃ d ds, body ++ rest = d :: ds := by
  cases h <;> exact ⟨_, _, rfl⟩

theorem literalBody_append (hslash : quote ≠ '\\') (h : LiteralText quote body) (rest : List Char) :
    literalBody quote (body ++ rest) = some (body, rest) := by
  induction h with
  | close => cases rest <;> simp [literalBody]
  | @plain c cs hquote hescape htext ih =>
    obtain ⟨d, ds, hcons⟩ := htext.exists_cons rest
    rw [cons_append, hcons, literalBody, if_neg hquote, if_neg hescape, ← hcons, ih]
    rfl
  | @escaped c cs htext ih =>
    rw [cons_append, cons_append, literalBody, if_neg hslash.symm, if_pos rfl, ih]
    rfl

theorem literal_append (hslash : quote ≠ '\\') (h : LiteralText quote body) (rest : List Char) :
    literal quote (quote :: body ++ rest) = some (quote :: body, rest) := by
  rw [cons_append, literal, if_pos rfl, literalBody_append hslash h]
  rfl

theorem literal_other (hc : c ≠ quote) (rest : List Char) : literal quote (c :: rest) = none := by
  rw [literal, if_neg hc]

theorem readToken_sqlLiteral (value rest : List Char) :
    readToken chars (sqlLiteral value ++ rest) = some (⟨.str, sqlLiteral value⟩, rest) := by
  have hspace : chars.isSpace '\'' = false := chars.mark_solid _ (by decide)
  rw [sqlLiteral_eq]
  have hread := literal_append (by decide) (literalText_escaped value) rest
  unfold readToken
  rw [hread]
  simp [spaces, hspace, Read.as]

variable {rest : List Char}

/-- A name is read through its closing quote, where no other name stands right after it. -/
theorem nameBody_eq (h : NameText body) (hrest : rest.head? = some '`' → quotedName rest = none) :
    nameBody (body ++ rest) = some (body, rest) := by
  induction h with
  | close =>
    cases rest with
    | nil => rfl
    | cons d ds =>
      by_cases hd : d = '`'
      · subst hd
        have hnone := hrest rfl
        rw [quotedName, if_pos rfl, Read.after, Option.map_eq_none_iff] at hnone
        simp [nameBody, hnone]
      · simp [nameBody, hd]
  | @plain c cs hc htext ih =>
    obtain ⟨d, ds, hcons⟩ : ∃ d ds, cs ++ rest = d :: ds := by
      cases htext <;> exact ⟨_, _, rfl⟩
    rw [cons_append, hcons, nameBody, if_neg hc, ← hcons, ih]
    rfl
  | @doubled cs _ ih =>
    rw [cons_append, cons_append, nameBody, if_pos rfl, if_pos rfl, ih]

theorem quotedName_append (h : NameText body)
    (hrest : rest.head? = some '`' → quotedName rest = none) :
    quotedName ('`' :: body ++ rest) = some ('`' :: body, rest) := by
  rw [cons_append, quotedName, if_pos rfl, nameBody_eq h hrest]
  rfl

theorem sparkText_literal (hquote : quote = '\'' ∨ quote = '"') (h : LiteralText quote body)
    (rest : List Char) :
    sparkText (quote :: body ++ rest) = some (.literal (quote :: body), rest) := by
  unfold sparkText
  obtain rfl | rfl := hquote
  · rw [literal_append (by decide) h]
    rfl
  · rw [literal_append (by decide) h, List.cons_append, literal_other (by decide)]
    rfl

theorem sparkText_name (h : NameText body)
    (hrest : rest.head? = some '`' → quotedName rest = none) :
    sparkText ('`' :: body ++ rest) = some (.name ('`' :: body), rest) := by
  unfold sparkText
  rw [quotedName_append h hrest, List.cons_append, literal_other (by decide),
    literal_other (by decide)]
  rfl

theorem sparkText_plain (hc : c ∉ ['\'', '"', '`']) (rest : List Char) :
    sparkText (c :: rest) = none := by
  simp only [mem_cons, not_mem_nil, or_false, not_or] at hc
  simp [sparkText, literal, quotedName, hc]

end
def quoteMarks : List Char := ['\'', '"', '`']

def textOf (tokens : List Tok) : List Char := tokens.flatMap Tok.text

/-- A token of Spark SQL: of its kind's shape, and no quote left open. -/
structure SparkToken (chars : Chars) (token : Tok) : Prop where
  shape : Shape chars token []
  closed : token.kind = .other → token.text ∉ quoteTexts
  digits : token.kind = .num → ∃ c ∈ token.text.head?, chars.isDigit c = true ∨ c = '.'

/-- Tokens that are the tokens of their text: two names side by side would be one. -/
structure SparkTokens (chars : Chars) (tokens : List Tok) : Prop where
  each : ∀ token ∈ tokens, SparkToken chars token
  apart : tokens.IsChain fun token next => token.kind = .bq → next.kind ≠ .bq

/-- A run of literals, each but the first with the white space before it, or one other token. -/
inductive Segment
  | run (first : Tok) (more : List (List Tok × Tok))
  | other (token : Tok)

def moreTokens (more : List (List Tok × Tok)) : List Tok :=
  more.flatMap fun next => next.1 ++ [next.2]

def Segment.tokens : Segment → List Tok
  | run first more => first :: moreTokens more
  | other token => [token]

/-- What the literals of a run hold, one after another. -/
def runValue (first : Tok) (more : List (List Tok × Tok)) : CodePoints :=
  unescape first.text ++ more.flatMap fun next => unescape next.2.text

/-- Whether tokens begin with a literal, after white space if any. -/
def goesOn (tokens : List Tok) : Bool := (peek tokens).any isLiteral

/-- White space and a literal. -/
def Joined (next : List Tok × Tok) : Prop :=
  (∀ token ∈ next.1, token.kind = .ws) ∧ isLiteral next.2 = true

/-- The tokens cut into maximal runs and the tokens in no run. -/
inductive Segmented : List Tok → List Segment → Prop
  | nil : Segmented [] []
  | run {first : Tok} {more : List (List Tok × Tok)} {tokens : List Tok} {segments : List Segment} :
      isLiteral first = true → (∀ next ∈ more, Joined next) → goesOn tokens = false →
        Segmented tokens segments →
          Segmented (first :: moreTokens more ++ tokens) (.run first more :: segments)
  | other {token : Tok} {tokens : List Tok} {segments : List Segment} :
      isLiteral token = false → Segmented tokens segments →
        Segmented (token :: tokens) (.other token :: segments)

/-- A text between two marks, the inner ones doubled, at the start of another. -/
def readQuoted (mark : Char) : CodePoints → Option (CodePoints × CodePoints)
  | c :: rest => if c = mark.toNat then Doubled.close mark.toNat rest else none
  | [] => none

/-- A text that spells the segments: it is read as one ANSI literal of each run's value, one quoted
name of each name's identifier, and the other tokens as `other` writes them. -/
inductive Spelled (mark : Char) (other : Tok → CodePoints) : List Segment → CodePoints → Prop
  | nil : Spelled mark other [] []
  | run {first : Tok} {more : List (List Tok × Tok)} {segments : List Segment}
      {out rest : CodePoints} :
      readQuoted '\'' out = some (runValue first more, rest) → Spelled mark other segments rest →
        Spelled mark other (.run first more :: segments) out
  | name {token : Tok} {segments : List Segment} {out rest : CodePoints} :
      token.kind = .bq → readQuoted mark out = some (points (identifier token), rest) →
        Spelled mark other segments rest → Spelled mark other (.other token :: segments) out
  | other {token : Tok} {segments : List Segment} {rest : CodePoints} :
      token.kind ≠ .bq → Spelled mark other segments rest →
        Spelled mark other (.other token :: segments) (other token ++ rest)

/-- A segment as `render` writes its token, a run as one literal. -/
def spelling (render : Tok → CodePoints) : Segment → CodePoints
  | .run first more => ansiString (runValue first more)
  | .other token => render token

section
variable {chars : Chars}

variable {token : Tok}

theorem isLiteral_iff : isLiteral token = true ↔ token.kind = .str ∨ token.kind = .dstr := by
  simp [isLiteral]

theorem SparkToken.literal (h : SparkToken chars token) (hliteral : isLiteral token = true) :
    ∃ quote body, (quote = '\'' ∨ quote = '"') ∧ token.text = quote :: body ∧
      LiteralText quote body := by
  have hshape := h.shape
  unfold Shape at hshape
  obtain hkind | hkind := isLiteral_iff.mp hliteral
  · rw [hkind] at hshape
    obtain ⟨body, htext, hbody⟩ := hshape
    exact ⟨'\'', body, Or.inl rfl, htext, hbody⟩
  · rw [hkind] at hshape
    obtain ⟨body, htext, hbody⟩ := hshape
    exact ⟨'"', body, Or.inr rfl, htext, hbody⟩

theorem SparkToken.name (h : SparkToken chars token) (hkind : token.kind = .bq) :
    ∃ body, token.text = '`' :: body ∧ NameText body := by
  have hshape := h.shape
  unfold Shape at hshape
  rw [hkind] at hshape
  obtain ⟨body, htext, hbody, -⟩ := hshape
  exact ⟨body, htext, hbody⟩

variable {c : Char}

theorem quoteMarks_marks (hc : c ∈ quoteMarks) : c ∈ marks := by
  revert c
  decide

theorem word_bare (hword : chars.isWord c = true ∨ c = '.') : c ∉ quoteMarks := by
  intro hc
  obtain hword | rfl := hword
  · exact word_not_mark hword (quoteMarks_marks hc)
  · revert hc
    decide

theorem Pieces.bare {text : List Char} (h : Pieces chars text) : ∀ c ∈ text, c ∉ quoteMarks := by
  induction h with
  | nil => simp
  | piece hc _ ih =>
    intro d hd
    rw [List.mem_cons] at hd
    obtain rfl | hd := hd
    · exact word_bare hc
    · exact ih d hd
  | signed hc hword _ ih =>
    intro e he
    rw [List.mem_cons, List.mem_cons] at he
    obtain rfl | rfl | he := he
    · obtain rfl | rfl := hc <;> decide
    · exact word_bare (Or.inl hword)
    · exact ih e he

theorem operators_bare :
    ∀ text ∈ operators, text ≠ [] ∧ ∀ c ∈ text, c ∉ quoteMarks ∧ c ∈ marks := by
  decide

theorem points_bare (hc : c ∉ quoteMarks) : c.toNat ∉ points quoteMarks := by
  intro hmem
  obtain ⟨d, hd, heq⟩ := List.mem_map.mp hmem
  rw [Char.toNat_inj] at heq
  exact hc (heq ▸ hd)

theorem SparkToken.bare (h : SparkToken chars token) (hliteral : isLiteral token = false)
    (hname : token.kind ≠ .bq) : token.text ≠ [] ∧ ∀ c ∈ token.text, c ∉ quoteMarks := by
  have hshape := h.shape
  refine ⟨hshape.text_ne_nil, ?_⟩
  unfold Shape at hshape
  cases hkind : token.kind <;> rw [hkind] at hshape <;> dsimp only at hshape
  case ws =>
    intro c hc hmark
    have hspace := hshape.2 c hc
    rw [chars.mark_solid c (quoteMarks_marks hmark)] at hspace
    cases hspace
  case str => simp [isLiteral, hkind] at hliteral
  case dstr => simp [isLiteral, hkind] at hliteral
  case bq => exact absurd hkind hname
  case num =>
    obtain ⟨d, ds, htext, hd, hpieces⟩ := hshape
    rw [htext]
    intro c hc
    rw [List.mem_cons] at hc
    obtain rfl | hc := hc
    · exact word_bare hd
    · exact hpieces.bare c hc
  case word => exact fun c hc => word_bare (Or.inl (hshape.2 c hc))
  case op => exact fun c hc => ((operators_bare _ hshape).2 c hc).1
  case other =>
    obtain ⟨d, htext, -, -⟩ := hshape
    have hclosed := h.closed hkind
    rw [htext] at hclosed ⊢
    intro c hc
    rw [List.mem_singleton] at hc
    subst hc
    simpa [quoteTexts, quoteMarks] using hclosed

theorem SparkToken.solid (h : SparkToken chars token) (hkind : token.kind ≠ .ws) :
    ∃ c cs, token.text = c :: cs ∧ chars.isSpace c = false := by
  have hword : ∀ {c : Char}, chars.isWord c = true ∨ c = '.' → chars.isSpace c = false := by
    rintro c (hc | rfl)
    · by_contra hspace
      rw [Bool.not_eq_false] at hspace
      rw [chars.space_plain c hspace] at hc
      cases hc
    · exact chars.mark_solid _ (by decide)
  have hshape := h.shape
  obtain ⟨c, cs, htext⟩ := List.exists_cons_of_ne_nil hshape.text_ne_nil
  refine ⟨c, cs, htext, ?_⟩
  unfold Shape at hshape
  cases hcases : token.kind <;> rw [hcases, htext] at hshape <;> dsimp only at hshape
  case ws => exact absurd hcases hkind
  case str =>
    obtain ⟨body, heq, -⟩ := hshape
    exact List.head_eq_of_cons_eq heq ▸ chars.mark_solid _ (by decide)
  case dstr =>
    obtain ⟨body, heq, -⟩ := hshape
    exact List.head_eq_of_cons_eq heq ▸ chars.mark_solid _ (by decide)
  case bq =>
    obtain ⟨body, heq, -⟩ := hshape
    exact List.head_eq_of_cons_eq heq ▸ chars.mark_solid _ (by decide)
  case num =>
    obtain ⟨d, ds, heq, hd, -⟩ := hshape
    exact List.head_eq_of_cons_eq heq ▸ hword hd
  case word => exact hword (Or.inl (hshape.2 c (by simp)))
  case op => exact chars.mark_solid c ((operators_bare _ hshape).2 c (by simp)).2
  case other =>
    obtain ⟨d, heq, hspace, -⟩ := hshape
    exact List.head_eq_of_cons_eq heq ▸ hspace

variable {tokens : List Tok}

theorem SparkTokens.tail (h : SparkTokens chars (token :: tokens)) : SparkTokens chars tokens :=
  ⟨fun t ht => h.each t (List.mem_cons_of_mem _ ht), h.apart.tail⟩

theorem SparkTokens.append_right {first last : List Tok} (h : SparkTokens chars (first ++ last)) :
    SparkTokens chars last :=
  ⟨fun t ht => h.each t (List.mem_append_right _ ht), h.apart.right_of_append⟩

theorem SparkTokens.after_name (h : SparkTokens chars (token :: tokens))
    (hname : token.kind = .bq) :
    ∀ next ∈ tokens.head?, next.kind ≠ .bq := by
  intro next hnext
  cases tokens with
  | nil => cases hnext
  | cons d ds =>
    simp only [List.head?_cons, Option.mem_def, Option.some.injEq] at hnext
    subst hnext
    exact (List.isChain_cons_cons.mp h.apart).1 hname

theorem goesOn_gap {gap rest : List Tok} (hgap : ∀ token ∈ gap, token.kind = .ws) :
    goesOn (gap ++ rest) = goesOn rest := by
  induction gap with
  | nil => rfl
  | cons t gap ih =>
    have ht := hgap t (by simp)
    rw [← ih fun token htoken => hgap token (by simp [htoken])]
    simp [goesOn, peek, skip, ht]

theorem goesOn_solid (hkind : token.kind ≠ .ws) (rest : List Tok) :
    goesOn (token :: rest) = isLiteral token := by
  simp [goesOn, peek, skip, hkind]

theorem isLiteral_solid (h : isLiteral token = true) : token.kind ≠ .ws := by
  intro hkind
  simp [isLiteral, hkind] at h

theorem exists_more (tokens : List Tok) : ∃ more rest, tokens = moreTokens more ++ rest ∧
    (∀ next ∈ more, Joined next) ∧ goesOn rest = false := by
  have hloop : ∀ gap tokens : List Tok, (∀ token ∈ gap, token.kind = .ws) →
      ∃ more rest, gap ++ tokens = moreTokens more ++ rest ∧ (∀ next ∈ more, Joined next) ∧
        goesOn rest = false := by
    intro gap tokens hgap
    induction tokens generalizing gap with
    | nil => exact ⟨[], gap, by simp [moreTokens], by simp, by
        rw [← List.append_nil gap, goesOn_gap hgap]; rfl⟩
    | cons t tokens ih =>
      by_cases hspace : t.kind = .ws
      · obtain ⟨more, rest, hsplit, hmore⟩ := ih (gap ++ [t]) (by
          intro token htoken
          rw [List.mem_append, List.mem_singleton] at htoken
          obtain htoken | rfl := htoken
          · exact hgap token htoken
          · exact hspace)
        exact ⟨more, rest, by simpa using hsplit, hmore⟩
      · cases hliteral : isLiteral t with
        | true =>
          obtain ⟨more, rest, hsplit, hmore, hrest⟩ := ih [] (by simp)
          rw [List.nil_append] at hsplit
          refine ⟨(gap, t) :: more, rest, by simp [moreTokens, hsplit], ?_, hrest⟩
          intro next hnext
          rw [List.mem_cons] at hnext
          obtain rfl | hnext := hnext
          · exact ⟨hgap, hliteral⟩
          · exact hmore next hnext
        | false =>
          refine ⟨[], gap ++ t :: tokens, rfl, by simp, ?_⟩
          rw [goesOn_gap hgap, goesOn_solid hspace, hliteral]
  exact hloop [] tokens (by simp)

theorem exists_segmented (tokens : List Tok) : ∃ segments, Segmented tokens segments := by
  induction hlength : tokens.length using Nat.strong_induction_on generalizing tokens with
  | _ n ih =>
    cases tokens with
    | nil => exact ⟨[], .nil⟩
    | cons t tokens =>
      rw [List.length_cons] at hlength
      cases hliteral : isLiteral t with
      | false =>
        obtain ⟨segments, hsegments⟩ := ih tokens.length (by omega) tokens rfl
        exact ⟨_, .other hliteral hsegments⟩
      | true =>
        obtain ⟨more, rest, rfl, hmore, hrest⟩ := exists_more tokens
        rw [List.length_append] at hlength
        obtain ⟨segments, hsegments⟩ := ih rest.length (by omega) rest rfl
        exact ⟨_, .run hliteral hmore hrest hsegments⟩

theorem readQuoted_quoted (mark : Char) (value : CodePoints) {rest : CodePoints}
    (hrest : rest.head? ≠ some mark.toNat) :
    readQuoted mark (quoted mark value ++ rest) = some (value, rest) := by
  rw [quoted, List.cons_append, List.cons_append, List.append_assoc, List.singleton_append,
    readQuoted, if_pos rfl]
  exact Doubled.close_double value hrest

/-- How names and the other tokens are written: a name as a quoted one, the others with no quote
first. -/
structure Renders (chars : Chars) (mark : Char) (render : Tok → CodePoints) : Prop where
  mark_name : mark = '`' ∨ mark = '"'
  name : ∀ token, SparkToken chars token → token.kind = .bq → ∀ rest : CodePoints,
    rest.head? ≠ some mark.toNat →
      readQuoted mark (render token ++ rest) = some (points (identifier token), rest)
  other : ∀ token, SparkToken chars token → isLiteral token = false → token.kind ≠ .bq →
    ∃ c ∈ (render token).head?, c ∉ points quoteMarks

variable {mark : Char}

theorem readQuoted_head {out : CodePoints} {read : CodePoints × CodePoints}
    (h : readQuoted mark out = some read) : out.head? = some mark.toNat := by
  cases out with
  | nil => cases h
  | cons c rest =>
    rw [readQuoted] at h
    split_ifs at h with hc
    rw [hc]
    rfl

variable {render : Tok → CodePoints}

theorem Renders.head (h : Renders chars mark render) (htoken : SparkToken chars token)
    (hliteral : isLiteral token = false) :
    ∃ c ∈ (render token).head?,
      (token.kind = .bq ∧ c = mark.toNat) ∨ (token.kind ≠ .bq ∧ c ∉ points quoteMarks) := by
  by_cases hname : token.kind = .bq
  · have hread := readQuoted_head (h.name token htoken hname [] (by simp))
    rw [append_nil] at hread
    exact ⟨mark.toNat, hread, Or.inl ⟨hname, rfl⟩⟩
  · obtain ⟨c, hc, hquote⟩ := h.other token htoken hliteral hname
    exact ⟨c, hc, Or.inr ⟨hname, hquote⟩⟩

theorem head?_append {first last : CodePoints} {c : Nat} (h : c ∈ first.head?) :
    (first ++ last).head? = some c := by
  cases first with
  | nil => cases h
  | cons d rest => simpa using h

variable {segments : List Segment}

theorem head_not_literal (h : Renders chars mark render) (hsegments : Segmented tokens segments)
    (htokens : SparkTokens chars tokens) (hgoes : goesOn tokens = false) :
    (segments.flatMap (spelling render)).head? ≠ some '\''.toNat := by
  cases hsegments with
  | nil => simp
  | @run first more rest segments hfirst =>
    rw [cons_append, goesOn_solid (isLiteral_solid hfirst), hfirst] at hgoes
    cases hgoes
  | @other token rest segments hliteral =>
    obtain ⟨c, hc, hcase⟩ := h.head (htokens.each token (by simp)) hliteral
    rw [flatMap_cons, spelling, head?_append hc]
    rintro heq
    rw [Option.some.injEq] at heq
    subst heq
    obtain ⟨-, hmark⟩ | ⟨-, hquote⟩ := hcase
    · obtain rfl | rfl := h.mark_name <;> revert hmark <;> decide
    · exact hquote (by decide)

theorem head_not_name (h : Renders chars mark render) (hsegments : Segmented tokens segments)
    (htokens : SparkTokens chars tokens) (hnext : ∀ next ∈ tokens.head?, next.kind ≠ .bq) :
    (segments.flatMap (spelling render)).head? ≠ some mark.toNat := by
  have hmark : mark.toNat ∈ points quoteMarks ∧ '\''.toNat ≠ mark.toNat := by
    obtain rfl | rfl := h.mark_name <;> decide
  cases hsegments with
  | nil => simp
  | @run first more rest segments hfirst =>
    rw [flatMap_cons]
    simpa [spelling, ansiString, quoted] using hmark.2
  | @other token rest segments hliteral =>
    obtain ⟨c, hc, hcase⟩ := h.head (htokens.each token (by simp)) hliteral
    rw [flatMap_cons, spelling, head?_append hc]
    rintro heq
    rw [Option.some.injEq] at heq
    subst heq
    obtain ⟨hname, -⟩ | ⟨-, hquote⟩ := hcase
    · exact hnext token (by simp) hname
    · exact hquote hmark.1

theorem spelled_segments (h : Renders chars mark render) (hsegments : Segmented tokens segments)
    (htokens : SparkTokens chars tokens) :
    Spelled mark render segments (segments.flatMap (spelling render)) := by
  induction hsegments with
  | nil => exact .nil
  | @run first more rest segments hfirst hmore hgoes hsegments ih =>
    have hrest := htokens.append_right
    rw [flatMap_cons]
    refine .run ?_ (ih hrest)
    exact readQuoted_quoted '\'' _ (head_not_literal h hsegments hrest hgoes)
  | @other token rest segments hliteral hsegments ih =>
    rw [flatMap_cons, spelling]
    by_cases hname : token.kind = .bq
    · refine .name hname ?_ (ih htokens.tail)
      exact h.name token (htokens.each token (by simp)) hname _
        (head_not_name h hsegments htokens.tail (htokens.after_name hname))
    · exact .other hname (ih htokens.tail)

end
end DeltaSwamp.Dialect
