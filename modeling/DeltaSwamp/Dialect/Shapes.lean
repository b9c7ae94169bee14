import DeltaSwamp.Dialect.Tokens

/-!
# What a token's characters are

One lemma for each alternative of the token table, and their assembly: the
tokens of a text are its characters in order, each of its kind's shape.
-/

namespace DeltaSwamp.Dialect

open List

/-- A literal after its opening quote. -/
inductive LiteralText (quote : Char) : List Char → Prop
  | close : LiteralText quote [quote]
  | plain {c : Char} {cs : List Char} :
      c ≠ quote → c ≠ '\\' → LiteralText quote cs → LiteralText quote (c :: cs)
  | escaped {c : Char} {cs : List Char} : LiteralText quote cs → LiteralText quote ('\\' :: c :: cs)

/-- A quoted name after its opening quote. -/
inductive NameText : List Char → Prop
  | close : NameText ['`']
  | plain {c : Char} {cs : List Char} : c ≠ '`' → NameText cs → NameText (c :: cs)
  | doubled {cs : List Char} : NameText cs → NameText ('`' :: '`' :: cs)

/-- Word characters and points, with a sign only right before a word character. -/
inductive Pieces (chars : Chars) : List Char → Prop
  | nil : Pieces chars []
  | piece {c : Char} {cs : List Char} :
      chars.isWord c = true ∨ c = '.' → Pieces chars cs → Pieces chars (c :: cs)
  | signed {c d : Char} {cs : List Char} :
      c = '+' ∨ c = '-' → chars.isWord d = true → Pieces chars cs → Pieces chars (c :: d :: cs)

/-- The characters of a token of each kind, given what the text goes on with. -/
def Shape (chars : Chars) (token : Tok) (rest : List Char) : Prop :=
  match token.kind with
  | .ws => token.text ≠ [] ∧ ∀ c ∈ token.text, chars.isSpace c = true
  | .str => ∃ body, token.text = '\'' :: body ∧ LiteralText '\'' body
  | .dstr => ∃ body, token.text = '"' :: body ∧ LiteralText '"' body
  | .bq => ∃ body, token.text = '`' :: body ∧ NameText body ∧
      (rest.head? = some '`' → quotedName rest = none)
  | .num => ∃ c cs, token.text = c :: cs ∧ (chars.isWord c = true ∨ c = '.') ∧ Pieces chars cs
  | .word => token.text ≠ [] ∧ ∀ c ∈ token.text, chars.isWord c = true
  | .op => token.text ∈ operators
  | .other => ∃ c, token.text = [c] ∧ chars.isSpace c = false ∧ [c] ∉ operators

section
variable {chars : Chars}

variable {body rest : List Char}

theorem Read.after_eq {first : List Char} {read : Read}
    (h : Read.after first read = some (body, rest)) :
    ∃ last, read = some (last, rest) ∧ body = first ++ last := by
  unfold Read.after at h
  rw [Option.map_eq_some_iff] at h
  obtain ⟨⟨last, rest'⟩, hread, heq⟩ := h
  simp only [Prod.mk.injEq] at heq
  exact ⟨last, by rw [hread, heq.2], heq.1.symm⟩

theorem Read.as_eq {kind : Kind} {token : Tok} {read : Read}
    (h : Read.as kind read = some (token, rest)) :
    read = some (token.text, rest) ∧ token.kind = kind := by
  unfold Read.as at h
  rw [Option.map_eq_some_iff] at h
  obtain ⟨⟨text, rest'⟩, hread, heq⟩ := h
  simp only [Prod.mk.injEq] at heq
  obtain ⟨rfl, rfl⟩ := heq
  exact ⟨hread, rfl⟩

variable {text : List Char}

theorem spaces_read (h : spaces chars text = some (body, rest)) :
    text = body ++ rest ∧ body ≠ [] ∧ ∀ c ∈ body, chars.isSpace c = true := by
  cases text with
  | nil => simp [spaces] at h
  | cons c cs =>
    rw [spaces] at h
    split_ifs at h with hspace
    simp only [Option.some.injEq, Prod.mk.injEq] at h
    obtain ⟨rfl, rfl⟩ := h
    refine ⟨by simp, by simp, ?_⟩
    intro d hd
    rw [mem_cons] at hd
    cases hd with
    | inl heq => exact heq ▸ hspace
    | inr hmem => exact mem_takeWhile_imp hmem

theorem literalBody_read {quote : Char} (h : literalBody quote text = some (body, rest)) :
    text = body ++ rest ∧ LiteralText quote body := by
  fun_induction literalBody quote text generalizing body with
  | case1 => simp at h
  | case2 =>
    simp only [Option.some.injEq, Prod.mk.injEq] at h
    obtain ⟨rfl, rfl⟩ := h
    exact ⟨rfl, .close⟩
  | case3 => simp at h
  | case4 d cs =>
    simp only [Option.some.injEq, Prod.mk.injEq] at h
    obtain ⟨rfl, rfl⟩ := h
    exact ⟨rfl, .close⟩
  | case5 d cs hquote ih =>
    obtain ⟨last, hread, rfl⟩ := Read.after_eq h
    obtain ⟨hsplit, hshape⟩ := ih hread
    exact ⟨by simp [hsplit], .escaped hshape⟩
  | case6 c d cs hquote hescape ih =>
    obtain ⟨last, hread, rfl⟩ := Read.after_eq h
    obtain ⟨hsplit, hshape⟩ := ih hread
    exact ⟨by simp [hsplit], .plain hquote hescape hshape⟩

theorem literal_read {quote : Char} (h : literal quote text = some (body, rest)) :
    text = body ++ rest ∧ ∃ last, body = quote :: last ∧ LiteralText quote last := by
  cases text with
  | nil => simp [literal] at h
  | cons c cs =>
    rw [literal] at h
    split_ifs at h with hquote
    obtain ⟨last, hread, rfl⟩ := Read.after_eq h
    obtain ⟨hsplit, hshape⟩ := literalBody_read hread
    exact ⟨by simp [hsplit], last, by simp [hquote], hshape⟩

theorem nameBody_read (h : nameBody text = some (body, rest)) :
    text = body ++ rest ∧ NameText body ∧ (rest.head? = some '`' → quotedName rest = none) := by
  fun_induction nameBody text generalizing body with
  | case1 => simp at h
  | case2 =>
    simp only [Option.some.injEq, Prod.mk.injEq] at h
    obtain ⟨rfl, rfl⟩ := h
    exact ⟨rfl, .close, by simp⟩
  | case3 => simp at h
  | case4 cs read hread ih =>
    simp only [Option.some.injEq, Prod.mk.injEq] at h
    obtain ⟨rfl, rfl⟩ := h
    obtain ⟨hsplit, hshape, hnext⟩ := ih hread
    exact ⟨by simp [← hsplit], .doubled hshape, hnext⟩
  | case5 cs hread =>
    simp only [Option.some.injEq, Prod.mk.injEq] at h
    obtain ⟨rfl, rfl⟩ := h
    exact ⟨rfl, .close, by simp [quotedName, hread, Read.after]⟩
  | case6 d cs hother =>
    simp only [Option.some.injEq, Prod.mk.injEq] at h
    obtain ⟨rfl, rfl⟩ := h
    exact ⟨rfl, .close, by simp [hother]⟩
  | case7 c d cs hother ih =>
    obtain ⟨last, hread, rfl⟩ := Read.after_eq h
    obtain ⟨hsplit, hshape, hnext⟩ := ih hread
    exact ⟨by simp [hsplit], .plain hother hshape, hnext⟩

theorem quotedName_read (h : quotedName text = some (body, rest)) :
    text = body ++ rest ∧ ∃ last, body = '`' :: last ∧ NameText last ∧
      (rest.head? = some '`' → quotedName rest = none) := by
  cases text with
  | nil => simp [quotedName] at h
  | cons c cs =>
    rw [quotedName] at h
    split_ifs at h with hquote
    obtain ⟨last, hread, rfl⟩ := Read.after_eq h
    obtain ⟨hsplit, hshape, hnext⟩ := nameBody_read hread
    exact ⟨by simp [hsplit], last, by simp [hquote], hshape, hnext⟩

theorem Pieces.append {first last : List Char} (hfirst : Pieces chars first)
    (hlast : Pieces chars last) : Pieces chars (first ++ last) := by
  induction hfirst with
  | nil => exact hlast
  | piece hc _ ih => exact .piece hc ih
  | signed hc hd _ ih => exact .signed hc hd ih

theorem Pieces.of_word (hword : ∀ c ∈ text, chars.isWord c = true) : Pieces chars text := by
  induction text with
  | nil => exact .nil
  | cons c cs ih =>
    exact .piece (Or.inl (hword c (by simp))) (ih fun d hd => hword d (by simp [hd]))

variable (chars) in
theorem digits_word (text : List Char) :
    ∀ c ∈ text.takeWhile chars.isDigit, chars.isWord c = true :=
  fun _ hc => chars.digit_word _ (mem_takeWhile_imp hc)

theorem sign_read (text : List Char) : text = (sign text).1 ++ (sign text).2 ∧
    ((sign text).1 = [] ∨ ∃ c, (sign text).1 = [c] ∧ (c = '+' ∨ c = '-')) := by
  cases text with
  | nil => simp [sign]
  | cons c cs =>
    rw [sign]
    split_ifs with hsign
    · exact ⟨rfl, Or.inr ⟨c, rfl, hsign⟩⟩
    · exact ⟨rfl, Or.inl rfl⟩

variable (chars) in
theorem exponent_read (text : List Char) :
    text = (exponent chars text).1 ++ (exponent chars text).2 ∧
      Pieces chars (exponent chars text).1 := by
  cases text with
  | nil => exact ⟨rfl, .nil⟩
  | cons c cs =>
    rw [exponent]
    split_ifs with hpower
    · obtain ⟨hletter, hdigits⟩ := hpower
      obtain ⟨hsplit, hsign⟩ := sign_read cs
      refine ⟨?_, ?_⟩
      · conv_lhs => rw [hsplit]
        simp
      · have hc : chars.isWord c = true :=
          chars.letter_word c (by rcases hletter with rfl | rfl <;> decide)
        refine .piece (Or.inl hc) ?_
        have hword := digits_word chars (sign cs).2
        cases hsign with
        | inl hnone => rw [hnone]; exact .of_word hword
        | inr hsome =>
          obtain ⟨s, hs, hplus⟩ := hsome
          rw [hs]
          cases htake : (sign cs).2.takeWhile chars.isDigit with
          | nil => exact absurd htake hdigits
          | cons d ds =>
            rw [htake] at hword
            exact .signed hplus (hword d (by simp))
              (.of_word fun e he => hword e (by simp [he]))
    · exact ⟨rfl, .nil⟩

variable (chars) in
theorem numberSuffix_read (text : List Char) :
    text = (numberSuffix text).1 ++ (numberSuffix text).2 ∧
      Pieces chars (numberSuffix text).1 := by
  have hletter : ∀ c ∈ ['L', 'l', 'S', 's', 'Y', 'y', 'D', 'd', 'F', 'f', 'B', 'b'],
      chars.isWord c = true := by
    intro c hc
    refine chars.letter_word c (Or.inl ?_)
    revert c
    decide
  fun_cases numberSuffix text with
  | case1 c d cs hpair =>
    refine ⟨rfl, .of_word ?_⟩
    intro e he
    apply hletter
    simp only [mem_cons, not_mem_nil, or_false] at hpair he ⊢
    grind
  | case2 c d cs _ hone =>
    refine ⟨rfl, .of_word ?_⟩
    intro e he
    apply hletter
    simp only [mem_cons, not_mem_nil, or_false] at hone he ⊢
    grind
  | case3 => exact ⟨rfl, .nil⟩
  | case4 c hone =>
    refine ⟨rfl, .of_word ?_⟩
    intro e he
    apply hletter
    simp only [mem_cons, not_mem_nil, or_false] at hone he ⊢
    grind
  | case5 => exact ⟨rfl, .nil⟩
  | case6 => exact ⟨rfl, .nil⟩

theorem numberFrom_read {digits : List Char}
    (h : numberFrom chars digits text = some (body, rest)) :
    digits ++ text = body ++ rest ∧ ∃ last, body = digits ++ last ∧ Pieces chars last := by
  unfold numberFrom at h
  dsimp only at h
  split_ifs at h
  simp only [Option.some.injEq, Prod.mk.injEq] at h
  obtain ⟨rfl, rfl⟩ := h
  obtain ⟨hpower, hpieces⟩ := exponent_read chars text
  obtain ⟨hsuffix, hletters⟩ := numberSuffix_read chars (exponent chars text).2
  refine ⟨?_, (exponent chars text).1 ++ (numberSuffix (exponent chars text).2).1, by simp,
    hpieces.append hletters⟩
  conv_lhs => rw [hpower, hsuffix]
  simp

theorem number_read (h : number chars text = some (body, rest)) :
    text = body ++ rest ∧ ∃ c cs, body = c :: cs ∧ (chars.isWord c = true ∨ c = '.') ∧
      Pieces chars cs := by
  have hsplit := takeWhile_append_dropWhile (p := chars.isDigit) (l := text)
  have hword := digits_word chars text
  unfold number at h
  dsimp only at h
  split at h
  · rename_i more hdigits hrest
    split_ifs at h with hnone
    obtain ⟨hparts, last, rfl, hpieces⟩ := numberFrom_read h
    refine ⟨?_, '.', more.takeWhile chars.isDigit ++ last, rfl, Or.inr rfl,
      (Pieces.of_word (digits_word chars more)).append hpieces⟩
    rw [← hsplit, hdigits, hrest, ← hparts]
    simp
  · cases h
  · rename_i d ds more hdigits hrest
    rw [hdigits] at hsplit hword h
    rw [hrest] at hsplit
    have hd : chars.isWord d = true := hword d (by simp)
    have hds : Pieces chars ds := .of_word fun c hc => hword c (by simp [hc])
    rw [Option.orElse_eq_orElse, Option.orElse_eq_or, Option.or_eq_some_iff] at h
    cases h with
    | inl h =>
      obtain ⟨hparts, last, rfl, hpieces⟩ := numberFrom_read h
      refine ⟨?_, d, ds ++ '.' :: more.takeWhile chars.isDigit ++ last, by simp, Or.inl hd, ?_⟩
      · rw [← hsplit, ← hparts]
        simp
      · exact (hds.append (.piece (Or.inr rfl) (.of_word (digits_word chars more)))).append hpieces
    | inr h =>
      obtain ⟨hparts, last, rfl, hpieces⟩ := numberFrom_read h.2
      exact ⟨by rw [← hsplit, ← hparts], d, ds ++ last, rfl, Or.inl hd, hds.append hpieces⟩
  · rename_i d ds hdigits hother
    rw [hdigits] at hsplit hword h
    obtain ⟨hparts, last, rfl, hpieces⟩ := numberFrom_read h
    refine ⟨by rw [← hsplit, ← hparts], d, ds ++ last, rfl, Or.inl (hword d (by simp)), ?_⟩
    exact (Pieces.of_word fun c hc => hword c (by simp [hc])).append hpieces

theorem word_read (h : word chars text = some (body, rest)) :
    text = body ++ rest ∧ body ≠ [] ∧ ∀ c ∈ body, chars.isWord c = true := by
  cases text with
  | nil => simp [word] at h
  | cons c cs =>
    rw [word] at h
    split_ifs at h with hstart
    simp only [Option.some.injEq, Prod.mk.injEq] at h
    obtain ⟨rfl, rfl⟩ := h
    refine ⟨by simp, by simp, ?_⟩
    intro d hd
    rw [mem_cons] at hd
    cases hd with
    | inl heq =>
      rw [heq]
      simp only [Bool.or_eq_true, Bool.and_eq_true, beq_iff_eq] at hstart
      rcases hstart with ⟨hword, -⟩ | hline
      · exact hword
      · exact chars.letter_word c (Or.inr hline)
    | inr hmem => exact mem_takeWhile_imp hmem

theorem operator_read (h : operator text = some (body, rest)) :
    text = body ++ rest ∧ body ∈ operators := by
  unfold operator at h
  rw [Option.map_eq_some_iff] at h
  obtain ⟨symbol, hfind, heq⟩ := h
  simp only [Prod.mk.injEq] at heq
  obtain ⟨rfl, rfl⟩ := heq
  have hfirst := List.find?_some hfind
  rw [List.isPrefixOf_iff_prefix] at hfirst
  obtain ⟨last, rfl⟩ := hfirst
  exact ⟨by simp, mem_of_find?_eq_some hfind⟩

theorem operator_none {c : Char} {cs : List Char} (h : operator (c :: cs) = none) :
    [c] ∉ operators := by
  intro hmem
  unfold operator at h
  rw [Option.map_eq_none_iff, List.find?_eq_none] at h
  exact h [c] hmem (by simp)

/-- A token is cut off the text, and has the shape of its kind. -/
theorem readToken_shape {token : Tok} (h : readToken chars text = some (token, rest)) :
    text = token.text ++ rest ∧ Shape chars token rest := by
  unfold readToken at h
  simp only [Option.orElse_eq_orElse, Option.orElse_eq_or, Option.or_eq_some_iff] at h
  rcases h with h | ⟨hws, h | ⟨-, h | ⟨-, h | ⟨-, h | ⟨-, h | ⟨-, h | ⟨hop, h⟩⟩⟩⟩⟩⟩⟩
  · obtain ⟨hread, hkind⟩ := Read.as_eq h
    obtain ⟨hsplit, hshape⟩ := spaces_read hread
    exact ⟨hsplit, by simpa only [Shape, hkind] using hshape⟩
  · obtain ⟨hread, hkind⟩ := Read.as_eq h
    obtain ⟨hsplit, hshape⟩ := literal_read hread
    exact ⟨hsplit, by simpa only [Shape, hkind] using hshape⟩
  · obtain ⟨hread, hkind⟩ := Read.as_eq h
    obtain ⟨hsplit, hshape⟩ := literal_read hread
    exact ⟨hsplit, by simpa only [Shape, hkind] using hshape⟩
  · obtain ⟨hread, hkind⟩ := Read.as_eq h
    obtain ⟨hsplit, hshape⟩ := quotedName_read hread
    exact ⟨hsplit, by simpa only [Shape, hkind] using hshape⟩
  · obtain ⟨hread, hkind⟩ := Read.as_eq h
    obtain ⟨hsplit, hshape⟩ := number_read hread
    exact ⟨hsplit, by simpa only [Shape, hkind] using hshape⟩
  · obtain ⟨hread, hkind⟩ := Read.as_eq h
    obtain ⟨hsplit, hshape⟩ := word_read hread
    exact ⟨hsplit, by simpa only [Shape, hkind] using hshape⟩
  · obtain ⟨hread, hkind⟩ := Read.as_eq h
    obtain ⟨hsplit, hshape⟩ := operator_read hread
    exact ⟨hsplit, by simpa only [Shape, hkind] using hshape⟩
  · obtain ⟨hread, hkind⟩ := Read.as_eq h
    cases text with
    | nil => simp [anyChar] at hread
    | cons c cs =>
      simp only [anyChar, Option.some.injEq, Prod.mk.injEq] at hread
      obtain ⟨htext, rfl⟩ := hread
      refine ⟨by simp [← htext], ?_⟩
      have hspace : chars.isSpace c = false := by
        by_contra hc
        simp [Read.as, spaces, hc] at hws
      simp only [Read.as, Option.map_eq_none_iff] at hop
      simp only [Shape, hkind]
      exact ⟨c, htext.symm, hspace, operator_none hop⟩

variable (chars) in
theorem readToken_some (c : Char) (cs : List Char) : (readToken chars (c :: cs)).isSome = true := by
  simp [readToken, Read.as, anyChar]

end

/-- A text cut into tokens of their kinds' shapes. -/
inductive Lexed (chars : Chars) : List Char → List Tok → Prop
  | nil : Lexed chars [] []
  | cons {token : Tok} {rest : List Char} {tokens : List Tok} :
      Shape chars token rest → Lexed chars rest tokens →
        Lexed chars (token.text ++ rest) (token :: tokens)

section
variable {chars : Chars}

theorem Shape.text_ne_nil {token : Tok} {rest : List Char} (h : Shape chars token rest) :
    token.text ≠ [] := by
  unfold Shape at h
  cases hkind : token.kind <;> rw [hkind] at h <;> dsimp only at h
  · exact h.1
  · obtain ⟨body, htext, -⟩ := h; simp [htext]
  · obtain ⟨body, htext, -⟩ := h; simp [htext]
  · obtain ⟨body, htext, -⟩ := h; simp [htext]
  · obtain ⟨c, cs, htext, -⟩ := h; simp [htext]
  · exact h.1
  · intro hnil
    rw [hnil] at h
    exact absurd h (by decide)
  · obtain ⟨c, htext, -⟩ := h; simp [htext]

theorem tokenizeFrom_lexed (turns : Nat) (text : List Char) (hturns : text.length ≤ turns) :
    Lexed chars text (tokenizeFrom chars turns text) := by
  induction turns generalizing text with
  | zero =>
    rw [eq_nil_of_length_eq_zero (Nat.le_zero.mp hturns)]
    exact .nil
  | succ turns ih =>
    cases text with
    | nil => exact .nil
    | cons c cs =>
      obtain ⟨⟨token, rest⟩, hread⟩ := Option.isSome_iff_exists.mp (readToken_some chars c cs)
      obtain ⟨hsplit, hshape⟩ := readToken_shape hread
      unfold tokenizeFrom
      rw [hread]
      dsimp only
      have hlonger := length_pos_iff.mpr hshape.text_ne_nil
      have hlength := congrArg List.length hsplit
      simp only [length_cons, length_append] at hlength hturns
      rw [hsplit]
      exact .cons hshape (ih rest (by omega))

theorem tokenize_lexed (text : List Char) : Lexed chars text (tokenize chars text) :=
  tokenizeFrom_lexed text.length text (Nat.le_refl _)

end
end DeltaSwamp.Dialect
