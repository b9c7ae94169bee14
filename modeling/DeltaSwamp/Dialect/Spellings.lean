import DeltaSwamp.Dialect.Respelled
import DeltaSwamp.Predicate.Lexed

/-!
# One value in every spelling

`_respell` over runs of literals, the predicate parser over the same text, and the
value all of them give.
-/

namespace DeltaSwamp.Dialect

open List

section
variable {chars : Chars}

variable {rest : List Tok}

theorem takeRun_gap {gap held : List Tok} (hgap : ∀ token ∈ gap, token.kind = .ws) :
    takeRun held (gap ++ rest) = takeRun (held ++ gap) rest := by
  induction gap generalizing held with
  | nil => simp
  | cons t gap ih =>
    rw [cons_append, takeRun, if_pos (hgap t (by simp)),
      ih fun token htoken => hgap token (by simp [htoken])]
    simp

theorem takeRun_end (hgoes : goesOn rest = false) (held : List Tok) :
    takeRun held rest = ([], held ++ rest) := by
  induction rest generalizing held with
  | nil => simp [takeRun]
  | cons t rest ih =>
    rw [takeRun]
    by_cases hspace : t.kind = .ws
    · rw [← singleton_append, goesOn_gap (by simpa using hspace)] at hgoes
      rw [if_pos hspace, ih hgoes]
      simp
    · rw [goesOn_solid hspace] at hgoes
      simp [hspace, hgoes]

theorem takeRun_more {more : List (List Tok × Tok)} (hmore : ∀ next ∈ more, Joined next)
    (hgoes : goesOn rest = false) :
    takeRun [] (moreTokens more ++ rest) =
      (more.flatMap fun next => unescape next.2.text, rest) := by
  induction more with
  | nil => simpa [moreTokens] using takeRun_end hgoes []
  | cons next more ih =>
    obtain ⟨hspace, hliteral⟩ := hmore next (by simp)
    rw [moreTokens_cons, append_assoc, takeRun_gap hspace, cons_append, takeRun,
      if_neg (isLiteral_solid hliteral), if_pos hliteral,
      ih fun next hnext => hmore next (by simp [hnext])]
    simp

variable {tokens : List Tok}

theorem respellFrom_segments (target : Target) {segments : List Segment}
    (hsegments : Segmented tokens segments) (turns : Nat) (hturns : tokens.length ≤ turns) :
    respellFrom target turns tokens = segments.flatMap (spelling (respellToken target)) := by
  induction hsegments generalizing turns with
  | nil => cases turns <;> rfl
  | @run first more rest segments hfirst hmore hgoes hsegments ih =>
    simp only [cons_append, length_cons, length_append] at hturns
    obtain ⟨turns, rfl⟩ := Nat.exists_eq_add_one_of_ne_zero (by omega : turns ≠ 0)
    rw [cons_append, respellFrom, if_pos hfirst, takeRun_more hmore hgoes,
      ih turns (by omega)]
    rfl
  | @other token rest segments hliteral hsegments ih =>
    rw [length_cons] at hturns
    obtain ⟨turns, rfl⟩ := Nat.exists_eq_add_one_of_ne_zero (by omega : turns ≠ 0)
    rw [respellFrom, hliteral, if_neg (by decide), ih turns (by omega)]
    rfl

variable {c : Char}

theorem letterSuffix_alpha {suffix : Suffix} (h : letterSuffix c = some suffix) :
    c.isAlpha = true := by
  unfold letterSuffix at h
  split_ifs at h with h₁ h₂ h₃ h₄ h₅
  · obtain rfl | rfl := h₁ <;> decide
  · obtain rfl | rfl := h₂ <;> decide
  · obtain rfl | rfl := h₃ <;> decide
  · obtain rfl | rfl := h₄ <;> decide
  · obtain rfl | rfl := h₅ <;> decide

theorem splitNumber_head {cs : List Char} (hc : c.isAlpha = false) :
    (splitNumber (c :: cs)).1.head? = some c := by
  have hnone : letterSuffix c = none := by
    cases hsuffix : letterSuffix c with
    | none => rfl
    | some suffix =>
      rw [letterSuffix_alpha hsuffix] at hc
      cases hc
  unfold splitNumber
  rw [reverse_cons]
  cases hrev : cs.reverse with
  | nil => simp [hnone]
  | cons d before =>
    rw [cons_append]
    dsimp only
    cases letterSuffix d with
    | none => rfl
    | some suffix =>
      dsimp only
      split_ifs with hpair
      · cases before with
        | nil =>
          obtain ⟨-, hb⟩ := hpair
          simp only [nil_append, List.head?_cons, Option.some.injEq] at hb
          obtain rfl | rfl := hb <;> revert hc <;> decide
        | cons e before => simp
      · simp

theorem numberText_head (target : Target) {read : List Char × Suffix}
    (hread : read.1.head? = some c) :
    ∃ d ∈ (numberText target read).head?, d = c ∨ d = 'C' ∨ d = 'a' := by
  obtain ⟨digits, suffix⟩ := read
  obtain ⟨cs, hdigits⟩ : ∃ cs, digits = c :: cs := by
    cases digits with
    | nil => cases hread
    | cons d cs =>
      simp only [List.head?_cons, Option.some.injEq] at hread
      exact ⟨cs, by rw [hread]⟩
  cases suffix with
  | plain | L => exact ⟨c, by simp [numberText, hdigits], Or.inl rfl⟩
  | D | F | S | Y =>
    unfold numberText
    dsimp only
    split_ifs
    · exact ⟨'C', by simp, Or.inr (Or.inl rfl)⟩
    · exact ⟨'a', by simp, Or.inr (Or.inr rfl)⟩
  | BD =>
    unfold numberText
    dsimp only
    split_ifs
    · exact ⟨c, by simp [hdigits], Or.inl rfl⟩
    · exact ⟨'a', by simp, Or.inr (Or.inr rfl)⟩

theorem digit_plain (chars : SqlChars) (hc : chars.isDigit c = true ∨ c = '.') :
    c.isAlpha = false ∧ c ∉ quoteMarks := by
  obtain hc | rfl := hc
  · refine ⟨?_, word_bare (Or.inl (chars.digit_word c hc))⟩
    by_contra halpha
    rw [Bool.not_eq_false] at halpha
    rw [chars.letter_digit c halpha] at hc
    cases hc
  · decide

variable {token : Tok}

theorem respellToken_head (chars : SqlChars) (target : Target) (h : SparkToken chars.toChars token)
    (hliteral : isLiteral token = false) (hname : token.kind ≠ .bq) :
    ∃ c ∈ (respellToken target token).head?, c ∉ points quoteMarks := by
  unfold respellToken
  split
  · exact absurd (by assumption) hname
  · rename_i hkind
    obtain ⟨c, hc, hdigit⟩ := h.digits hkind
    obtain ⟨cs, htext⟩ : ∃ cs, token.text = c :: cs := by
      cases hcases : token.text with
      | nil => simp [hcases] at hc
      | cons d cs => exact ⟨cs, by simpa [hcases, eq_comm] using hc⟩
    obtain ⟨halpha, hquote⟩ := digit_plain chars hdigit
    rw [htext]
    have hhead : (splitNumber (c :: cs)).1.head? = some c := splitNumber_head halpha
    obtain ⟨d, hd, hcase⟩ := numberText_head target hhead
    refine ⟨d.toNat,
      by simp only [points, List.head?_map, Option.mem_def] at hd ⊢; rw [hd]; rfl, ?_⟩
    apply points_bare
    obtain rfl | rfl | rfl := hcase
    · exact hquote
    · decide
    · decide
  · split_ifs
    · exact ⟨32, rfl, by decide⟩
    · exact ⟨'='.toNat, rfl, by decide⟩
    · exact points_head h hliteral hname
  · exact points_head h hliteral hname

def Target.nameMark : Target → Char
  | .duckdb => '"'
  | .datafusion => '`'

theorem renders_respellToken (chars : SqlChars) (target : Target) :
    Renders chars.toChars target.nameMark (respellToken target) where
  mark_name := by cases target <;> decide
  name token h hname rest hrest := by
    have hrender : respellToken target token = if target = .duckdb then
        quoted '"' (points (identifier token)) else points token.text := by
      simp [respellToken, hname]
    rw [hrender]
    cases target with
    | duckdb => exact readQuoted_quoted '"' _ hrest
    | datafusion => exact readQuoted_points h hname hrest
  other _ := respellToken_head chars target

/-- All but a name, a number and the two operators engines lack goes through as it stands. -/
theorem letterSuffix_ne_plain (c : Char) : letterSuffix c ≠ some .plain := by
  unfold letterSuffix
  split_ifs <;> simp

theorem splitNumber_plain {text : List Char} (h : (splitNumber text).2 = .plain) :
    splitNumber text = (text, .plain) := by
  unfold splitNumber at h ⊢
  cases hreverse : text.reverse with
  | nil => rfl
  | cons c before =>
    rw [hreverse] at h
    dsimp only at h ⊢
    cases hsuffix : letterSuffix c with
    | none => rfl
    | some suffix =>
      rw [hsuffix] at h
      dsimp only at h
      split_ifs at h with hdecimal
      exact absurd (h ▸ hsuffix) (letterSuffix_ne_plain c)

theorem respellToken_same (target : Target) (hname : token.kind ≠ .bq)
    (hnumber : token.kind = .num → (splitNumber token.text).2 = .plain)
    (hsafe : token.text ≠ ['<', '=', '>']) (hequal : token.text ≠ ['=', '=']) :
    respellToken target token = points token.text := by
  unfold respellToken
  split
  · contradiction
  · rename_i hkind
    rw [splitNumber_plain (hnumber hkind)]
    rfl
  · rw [if_neg hsafe, if_neg hequal]
  · rfl

theorem number_head {text body rest : List Char} (h : number chars text = some (body, rest)) :
    ∃ c ∈ body.head?, chars.isDigit c = true ∨ c = '.' := by
  unfold number at h
  cases hfirst : text.takeWhile chars.isDigit with
  | nil =>
    rw [hfirst] at h
    cases hrest : text.dropWhile chars.isDigit with
    | nil =>
      rw [hrest] at h
      cases h
    | cons c more =>
      rw [hrest] at h
      by_cases hpoint : c = '.'
      · subst hpoint
        simp only [Option.ite_none_left_eq_some] at h
        obtain ⟨-, last, rfl, -⟩ := (numberFrom_read h.2)
        exact ⟨'.', by simp, Or.inr rfl⟩
      · simp [hpoint] at h
  | cons d ds =>
    have hd : chars.isDigit d = true :=
      mem_takeWhile_imp (l := text) (by rw [hfirst]; simp)
    suffices hlast : ∃ last, body = d :: ds ++ last by
      obtain ⟨last, rfl⟩ := hlast
      exact ⟨d, by simp, Or.inl hd⟩
    rw [hfirst] at h
    cases hrest : text.dropWhile chars.isDigit with
    | nil =>
      rw [hrest] at h
      obtain ⟨-, last, hlast, -⟩ := numberFrom_read h
      exact ⟨last, hlast⟩
    | cons c more =>
      rw [hrest] at h
      by_cases hpoint : c = '.'
      · subst hpoint
        simp only [Option.orElse_eq_orElse, Option.orElse_eq_or, Option.or_eq_some_iff] at h
        obtain h | ⟨-, h⟩ := h
        · obtain ⟨-, last, hlast, -⟩ := numberFrom_read h
          exact ⟨'.' :: more.takeWhile chars.isDigit ++ last, by simpa using hlast⟩
        · obtain ⟨-, last, hlast, -⟩ := numberFrom_read h
          exact ⟨last, hlast⟩
      · simp [hpoint] at h
        obtain ⟨-, last, hlast, -⟩ := numberFrom_read h
        exact ⟨last, hlast⟩

theorem readToken_digits {text : List Char} {token : Tok} {rest : List Char}
    (h : readToken chars text = some (token, rest)) (hkind : token.kind = .num) :
    ∃ c ∈ token.text.head?, chars.isDigit c = true ∨ c = '.' := by
  unfold readToken at h
  simp only [Option.orElse_eq_orElse, Option.orElse_eq_or, Option.or_eq_some_iff] at h
  obtain h | ⟨-, h | ⟨-, h | ⟨-, h | ⟨-, h | ⟨-, h | ⟨-, h | ⟨-, h⟩⟩⟩⟩⟩⟩⟩ := h <;>
    obtain ⟨hread, hother⟩ := Read.as_eq h
  case inr.inr.inr.inr.inl => exact number_head hread
  all_goals simp [hkind] at hother

theorem tokenizeFrom_digits (turns : Nat) (text : List Char) :
    ∀ token ∈ tokenizeFrom chars turns text, token.kind = .num →
      ∃ c ∈ token.text.head?, chars.isDigit c = true ∨ c = '.' := by
  induction turns generalizing text with
  | zero => simp [tokenizeFrom]
  | succ turns ih =>
    unfold tokenizeFrom
    cases hread : readToken chars text with
    | none => simp
    | some read =>
      intro token htoken hkind
      rw [mem_cons] at htoken
      obtain rfl | htoken := htoken
      · exact readToken_digits (hread : _ = some (read.1, read.2)) hkind
      · exact ih read.2 token htoken hkind

theorem Shape.alone {rest : List Char} (h : Shape chars token rest) : Shape chars token [] := by
  unfold Shape at h ⊢
  cases hkind : token.kind <;> rw [hkind] at h <;> dsimp only at h ⊢
  case bq =>
    obtain ⟨body, htext, hbody, -⟩ := h
    exact ⟨body, htext, hbody, by simp⟩
  all_goals exact h

theorem Lexed.text {text : List Char} {tokens : List Tok} (h : Lexed chars text tokens) :
    textOf tokens = text := by
  induction h with
  | nil => rfl
  | cons _ _ ih => rw [textOf_cons, ih]

theorem Lexed.apart {text : List Char} {tokens : List Tok} (h : Lexed chars text tokens) :
    (∀ token ∈ tokens, Shape chars token []) ∧
      tokens.IsChain fun token next => token.kind = .bq → next.kind ≠ .bq := by
  induction h with
  | nil => exact ⟨by simp, .nil⟩
  | @cons token rest tokens hshape hlexed ih =>
    refine ⟨?_, ?_⟩
    · intro other hother
      rw [mem_cons] at hother
      obtain rfl | hother := hother
      · exact hshape.alone
      · exact ih.1 other hother
    · cases hlexed with
      | nil => exact .singleton token
      | @cons next rest tokens hnext hlexed =>
        refine isChain_cons_cons.mpr ⟨?_, ih.2⟩
        intro hname hsame
        unfold Shape at hshape hnext
        rw [hname] at hshape
        rw [hsame] at hnext
        obtain ⟨-, -, -, hclosed⟩ := hshape
        obtain ⟨body, htext, hbody, hafter⟩ := hnext
        rw [htext, quotedName_append hbody hafter] at hclosed
        cases hclosed rfl

theorem tokenize_spark (text : List Char)
    (hclosed : ∀ token ∈ tokenize chars text, token.kind = .other → token.text ∉ quoteTexts) :
    SparkTokens chars (tokenize chars text) ∧ textOf (tokenize chars text) = text := by
  have hlexed : Lexed chars text (tokenize chars text) := tokenize_lexed text
  refine ⟨⟨fun token htoken => ⟨hlexed.apart.1 token htoken, hclosed token htoken, ?_⟩,
    hlexed.apart.2⟩, hlexed.text⟩
  exact tokenizeFrom_digits _ _ token htoken

theorem respell_segments {warehouse : List Char → Option String} {target : Target} {check : Bool}
    {segments : List Segment} (hsegments : Segmented tokens segments) {out : CodePoints}
    (h : respell chars warehouse tokens target check = .ok out) :
    out = segments.flatMap (spelling (respellToken target)) := by
  unfold respell at h
  split at h
  · cases h
  · cases h
    exact respellFrom_segments target hsegments _ (Nat.le_refl _)

theorem Segmented.run_at {before after : List Segment} {first : Tok} {more : List (List Tok × Tok)}
    (h : Segmented tokens (before ++ .run first more :: after)) :
    ∃ front rest, tokens = front ++ (first :: moreTokens more ++ rest) ∧
      rest = after.flatMap Segment.tokens ∧ isLiteral first = true ∧ (∀ next ∈ more, Joined next) ∧
        goesOn rest = false := by
  have htokens : ∀ {tokens segments}, Segmented tokens segments →
      tokens = segments.flatMap Segment.tokens := by
    intro tokens segments hsegments
    induction hsegments with
    | nil => rfl
    | run _ _ _ _ ih => rw [flatMap_cons, ← ih]; rfl
    | other _ _ ih => rw [flatMap_cons, ← ih]; rfl
  induction before generalizing tokens with
  | nil =>
    cases h with
    | run hfirst hmore hgoes hrest => exact ⟨[], _, rfl, htokens hrest, hfirst, hmore, hgoes⟩
  | cons segment before ih =>
    cases h with
    | @run other others rest _ _ _ _ hrest =>
      obtain ⟨front, last, rfl, hfacts⟩ := ih hrest
      exact ⟨other :: moreTokens others ++ front, last, by simp, hfacts⟩
    | @other token rest _ _ hrest =>
      obtain ⟨front, last, rfl, hfacts⟩ := ih hrest
      exact ⟨token :: front, last, by simp, hfacts⟩

end

/-- `literal` writes one token that decodes to its value. Spark tokens are cut into maximal runs of
literals and the rest, and both respellings write each run as one literal of its value, keep each
name's identifier and leave the other tokens (but for suffixed numbers and two operators in
`_respell`); the predicate parser takes the same value from a run, where no escape in it is of a
line feed. -/
theorem literals_keep_value (chars : SqlChars) :
    (∀ value rest : List Char,
      readToken chars.toChars (sqlLiteral value ++ rest) = some (⟨.str, sqlLiteral value⟩, rest) ∧
        unescape (sqlLiteral value) = points value) ∧
    (∀ text : List Char, (∀ token ∈ tokenize chars.toChars text, token.kind = .other →
        token.text ∉ quoteTexts) →
      SparkTokens chars.toChars (tokenize chars.toChars text) ∧
        textOf (tokenize chars.toChars text) = text) ∧
    ∀ tokens : List Tok, SparkTokens chars.toChars tokens →
      ∃ segments, Segmented tokens segments ∧
        Spelled '`' (fun token => points token.text) segments
          (standardStringLiterals chars.toChars (textOf tokens)) ∧
        (∀ warehouse target check out,
          respell chars.toChars warehouse tokens target check = .ok out →
            Spelled target.nameMark (respellToken target) segments out) ∧
        (∀ target, ∀ token ∈ tokens, token.kind ≠ .bq →
          (token.kind = .num → (splitNumber token.text).2 = .plain) →
          token.text ≠ ['<', '=', '>'] → token.text ≠ ['=', '='] →
            respellToken target token = points token.text) ∧
        ∀ before first more after, segments = before ++ .run first more :: after →
          Predicate.Lexer.escapesLine first.text = false →
          (∀ next ∈ more, Predicate.Lexer.escapesLine next.2.text = false) →
          ∀ tail, Predicate.Lexer.tokenize chars.toChars
              (textOf (after.flatMap Segment.tokens)) = .ok tail →
            ∃ read, Predicate.Lexer.tokenize chars.toChars
                (textOf (first :: moreTokens more ++ after.flatMap Segment.tokens)) = .ok read ∧
              Predicate.Lexer.value chars.toChars read =
                .ok (.string (runValue first more), tail) := by
  refine ⟨fun value rest => ⟨readToken_sqlLiteral value rest, unescape_sqlLiteral value⟩,
    tokenize_spark, ?_⟩
  intro tokens htokens
  obtain ⟨segments, hsegments⟩ := exists_segmented tokens
  refine ⟨segments, hsegments, ?_, ?_, ?_, ?_⟩
  · rw [standard_segments hsegments htokens]
    exact spelled_segments (renders_points chars.toChars) hsegments htokens
  · intro warehouse target check out hout
    rw [respell_segments hsegments hout]
    exact spelled_segments (renders_respellToken chars target) hsegments htokens
  · exact fun target token _ => respellToken_same target
  · rintro before first more after rfl hline hlines tail htail
    obtain ⟨front, rest, rfl, rfl, hfirst, hmore, hgoes⟩ := hsegments.run_at
    exact Predicate.Lexer.value_run hfirst hmore hgoes htokens.append_right ⟨hline, hlines⟩ htail

/-- `7L` goes to DataFusion as `7`. -/
theorem number_respelled :
    SparkTokens ascii [⟨.num, ['7', 'L']⟩] ∧
      respell ascii (fun _ => none) [⟨.num, ['7', 'L']⟩] .datafusion true = .ok (points ['7']) ∧
        ∀ segments, Segmented [⟨.num, ['7', 'L']⟩] segments →
          ¬ Spelled '`' (fun token => points token.text) segments (points ['7']) := by
  refine ⟨⟨?_, .singleton _⟩, by decide, ?_⟩
  · intro token htoken
    rw [mem_singleton] at htoken
    subst htoken
    refine ⟨⟨'7', ['L'], rfl, by decide, .piece (by decide) .nil⟩, by decide, ?_⟩
    exact fun _ => ⟨'7', rfl, by decide⟩
  · intro segments hsegments hspelled
    generalize htokens : [(⟨.num, ['7', 'L']⟩ : Tok)] = tokens at hsegments
    cases hsegments with
    | nil => cases htokens
    | run hfirst =>
      rw [cons_append, List.cons.injEq] at htokens
      rw [← htokens.1] at hfirst
      cases hfirst
    | other hliteral hrest =>
      obtain ⟨rfl, rfl⟩ := List.cons.inj htokens
      cases hrest
      generalize hout : points ['7'] = out at hspelled
      cases hspelled with
      | name hname => cases hname
      | other hname hrest => simp [points] at hout

end DeltaSwamp.Dialect
