import DeltaSwamp.TypeText.Legible
import DeltaSwamp.Variant.Tree

/-!
# What the reader finds in a described type

Reading the text of a type gives the type pruned to its VARIANTs, and leaves what stands behind it,
up to the words that a field's end is looked for over.
-/

namespace DeltaSwamp.Variant

open List

open TypeText (Unicode quote Solid strip_solid)
open Storage (isSpace strip)

variable {c : Char}

theorem wordChar_toNat (h : wordChar c = true) :
    48 ≤ c.toNat ∧ c.toNat ≤ 57 ∨ 97 ≤ c.toNat ∧ c.toNat ≤ 122 ∨ 65 ≤ c.toNat ∧ c.toNat ≤ 90 ∨
      c.toNat = 95 := by
  simp only [wordChar, Text.isAsciiAlphanumeric, Text.isAsciiDigit, Bool.or_eq_true,
    Bool.and_eq_true, decide_eq_true_eq, beq_iff_eq, Char.le_def, UInt32.le_iff_toNat_le] at h
  obtain ((h | h) | h) | rfl := h
  · exact .inl h
  · exact .inr (.inl h)
  · exact .inr (.inr (.inl h))
  · exact .inr (.inr (.inr rfl))

theorem wordChar_ascii (h : wordChar c = true) : c.toNat < 128 := by
  have hrange := wordChar_toNat h
  omega

theorem wordChar_solid (h : wordChar c = true) : isSpace c = false := by
  have hrange := wordChar_toNat h
  simp only [isSpace, mem_cons, not_mem_nil, or_false, decide_eq_false_iff_not]
  omega

theorem wordChar_ne {d : Char} (h : wordChar c = true) (hd : wordChar d = false) : c ≠ d := by
  rintro rfl
  rw [h] at hd
  cases hd

theorem wordChar_ident (h : wordChar c = true) : endsIdent c = false := by
  simp only [endsIdent, mem_cons, not_mem_nil, or_false, decide_eq_false_iff_not, not_or]
  refine ⟨?_, ?_, ?_, ?_, ?_, ?_, ?_, ?_⟩ <;> exact wordChar_ne h (by decide)

variable {text : Text}

theorem skipWs_solid (h : ∀ c ∈ text.head?, isSpace c = false) : skipWs text = text := by
  cases text with
  | nil => rfl
  | cons c rest => exact dropWhile_cons_of_neg (by simp [h c rfl])

variable {rest : Text}

theorem ident_word (word : Word) (hrest : ∀ c ∈ rest.head?, endsIdent c = true) :
    ident (word.text ++ rest) = (word.text, rest) := by
  obtain ⟨text, hne, hplain⟩ := word
  obtain ⟨c, more, rfl⟩ := exists_cons_of_ne_nil hne
  have hc := hplain c mem_cons_self
  have hws : skipWs (c :: more ++ rest) = c :: more ++ rest :=
    skipWs_solid (by rintro d ⟨⟩; exact wordChar_solid hc)
  have hstop : rest.takeWhile (!endsIdent ·) = [] ∧ rest.dropWhile (!endsIdent ·) = rest := by
    cases rest with
    | nil => exact ⟨rfl, rfl⟩
    | cons d rest => simp [hrest d rfl]
  have hall : ∀ d ∈ c :: more, (!endsIdent d) = true := by
    intro d hd
    simp [wordChar_ident (hplain d hd)]
  unfold ident
  rw [hws]
  split
  · rename_i heq
    exact absurd (List.cons.inj heq).1 (wordChar_ne hc (by decide))
  · rw [takeWhile_append_of_pos hall, dropWhile_append_of_pos hall, hstop.1, hstop.2,
      append_nil]

theorem ident_quoted (name : Text) (hrest : rest.head? ≠ some '`') :
    ident (quote name ++ rest) = (name, rest) := by
  have hws : skipWs (quote name ++ rest) = quote name ++ rest :=
    skipWs_solid (by rintro d ⟨⟩; decide)
  have hquote : quote name ++ rest = '`' :: (Doubled.double '`' name ++ '`' :: rest) := by
    simp [quote]
  unfold ident
  rw [hws, hquote]
  simp [Doubled.close_double name hrest]

theorem ident_name (name : Name) (rest : Text) :
    ident (name.spelled ++ ':' :: rest) = (name.text, ':' :: rest) := by
  cases name with
  | bare word => exact ident_word word (by rintro c ⟨⟩; decide)
  | quoted text => exact ident_quoted text (by simp)

/-- Neither an end of a field nor a quote. -/
def passed (c : Char) : Bool := c ∉ [',', '>', '\'', '"']

theorem skipField_passed (h : ∀ c ∈ text, passed c = true) (rest : Text) :
    skipField .outside (text ++ rest) = skipField .outside rest := by
  induction text with
  | nil => rfl
  | cons c text ih =>
    obtain ⟨hc, htext⟩ := List.forall_mem_cons.mp h
    simp only [passed, List.mem_cons, List.not_mem_nil, or_false, not_or, decide_eq_true_eq] at hc
    rw [List.cons_append, skipField, if_neg (by simp [hc]), if_neg (by simp [hc])]
    exact ih htext

theorem passed_word (h : wordChar c = true) : passed c = true := by
  simp only [passed, List.mem_cons, List.not_mem_nil, or_false, not_or, decide_eq_true_eq]
  refine ⟨?_, ?_, ?_, ?_⟩ <;> exact wordChar_ne h (by decide)

theorem passed_space (h : isSpace c = true) : passed c = true := by
  simp only [passed, List.mem_cons, List.not_mem_nil, or_false, not_or, decide_eq_true_eq]
  refine ⟨?_, ?_, ?_, ?_⟩ <;> (rintro rfl; revert h; decide)

theorem skipField_skipWs (text : Text) :
    skipField .outside (skipWs text) = skipField .outside text := by
  have hsplit := List.takeWhile_append_dropWhile (p := isSpace) (l := text)
  have hblank : ∀ c ∈ text.takeWhile isSpace, passed c = true :=
    fun c hc => passed_space (List.mem_takeWhile_imp hc)
  calc skipField .outside (skipWs text)
      = skipField .outside (text.takeWhile isSpace ++ skipWs text) :=
        (skipField_passed hblank _).symm
    _ = skipField .outside text := by rw [skipWs, hsplit]

theorem skipField_words (words : List Word) (rest : Text) :
    skipField .outside (wordsText words ++ rest) = skipField .outside rest := by
  apply skipField_passed
  intro c hc
  obtain ⟨word, -, hc⟩ := List.mem_flatMap.mp hc
  obtain rfl | hc := List.mem_cons.mp hc
  · decide
  · exact passed_word (word.plain c hc)

theorem skipField_quote {mark : Char} (hmark : mark = '\'' ∨ mark = '"') (text : Text) :
    skipField .outside (mark :: text) = skipField (.inside mark) text := by
  obtain rfl | rfl := hmark <;> rfl

theorem skipField_comment {mark : Char} (hmark : mark = '\'' ∨ mark = '"')
    (body : List (Piece mark)) (rest : Text) :
    skipField (.inside mark) (body.flatMap Piece.spelled ++ mark :: rest) =
      skipField .outside rest := by
  have hescape : '\\' ≠ mark := by obtain rfl | rfl := hmark <;> decide
  induction body with
  | nil => rw [flatMap_nil, nil_append, skipField, if_pos rfl]
  | cons piece body ih =>
    rw [flatMap_cons, append_assoc]
    cases piece with
    | plain c hc =>
      rw [Piece.spelled, singleton_append, skipField, if_neg hc.1, if_neg hc.2, ih]
    | escaped c =>
      rw [Piece.spelled, cons_append, skipField, if_neg hescape, if_pos rfl]
      exact ih
    | doubled =>
      rw [Piece.spelled, cons_append, skipField, if_pos rfl]
      exact (skipField_quote hmark _).trans ih

theorem skipField_trailer (trailer : Trailer) (rest : Text) :
    skipField .outside (trailer.spelled ++ rest) = skipField .outside rest := by
  cases trailer with
  | notNull => exact skipField_passed (by decide) rest
  | collate name =>
    rw [Trailer.spelled, append_assoc, skipField_passed (by decide)]
    exact skipField_passed (fun c hc => passed_word (name.plain c hc)) rest
  | comment mark hmark body =>
    rw [Trailer.spelled, append_assoc, skipField_passed (by decide), cons_append,
      append_assoc, skipField_quote hmark]
    exact skipField_comment hmark body rest

theorem skipField_trailers (trailers : List Trailer) (rest : Text) :
    skipField .outside (trailersText trailers ++ rest) = skipField .outside rest := by
  induction trailers with
  | nil => rfl
  | cons trailer trailers ih =>
    rw [trailersText, flatMap_cons, append_assoc, skipField_trailer]
    exact ih

/-- What may stand behind a type: nothing, the end of what it is in, or a word behind a blank. -/
inductive Follows : Text → Prop
  | done : Follows []
  | ends {c : Char} (hc : c = ',' ∨ c = '>') (rest : Text) : Follows (c :: rest)
  | word {c : Char} (hc : wordChar c = true) (rest : Text) : Follows (' ' :: c :: rest)

theorem Follows.ident (h : Follows rest) : ∀ c ∈ rest.head?, endsIdent c = true := by
  cases h with
  | done => nofun
  | ends hc rest =>
    rintro c ⟨⟩
    obtain rfl | rfl := hc <;> decide
  | word hc rest =>
    rintro c ⟨⟩
    decide

theorem Follows.skipped (h : Follows rest) : ∀ c ∈ (skipWs rest).head?, c ≠ '(' ∧ c ≠ '<' := by
  cases h with
  | done => nofun
  | @ends c hc rest =>
    have hsolid : skipWs (c :: rest) = c :: rest :=
      skipWs_solid (by rintro d ⟨⟩; obtain rfl | rfl := hc <;> decide)
    rw [hsolid]
    rintro c ⟨⟩
    obtain rfl | rfl := hc <;> decide
  | @word c hc rest =>
    have hsolid : skipWs (' ' :: c :: rest) = c :: rest := by
      rw [skipWs, dropWhile_cons_of_pos (by decide)]
      exact skipWs_solid (by rintro d ⟨⟩; exact wordChar_solid hc)
    rw [hsolid]
    rintro d ⟨⟩
    exact ⟨wordChar_ne hc (by decide), wordChar_ne hc (by decide)⟩

theorem Follows.unopened (h : Follows rest) : rest.head? ≠ some '<' := by
  intro hhead
  cases h with
  | done => cases hhead
  | ends hc rest =>
    cases hhead
    obtain h | h := hc <;> revert h <;> decide
  | word hc rest => cases hhead

theorem follows_words (words : List Word) (h : Follows rest) :
    Follows (wordsText words ++ rest) := by
  cases words with
  | nil => exact h
  | cons word words =>
    obtain ⟨c, more, htext⟩ := exists_cons_of_ne_nil word.nonempty
    have hc := word.plain c (by rw [htext]; exact mem_cons_self)
    rw [wordsText, flatMap_cons, htext]
    exact .word hc _

theorem follows_trailers (trailers : List Trailer) (h : Follows rest) :
    Follows (trailersText trailers ++ rest) := by
  cases trailers with
  | nil => exact h
  | cons trailer trailers =>
    rw [trailersText, flatMap_cons]
    cases trailer with
    | notNull => exact .word (by decide) _
    | collate name => exact .word (by decide) _
    | comment mark hmark body => exact .word (by decide) _

theorem pastArgs_other {text : Text} (h : text.head? ≠ some '(') : pastArgs text = .ok text := by
  unfold pastArgs
  split
  · exact absurd rfl h
  · rfl

theorem pastArgs_args (args : Args) (rest : Text) :
    pastArgs ('(' :: (args.text ++ [')']) ++ rest) = .ok rest := by
  have hall : ∀ c ∈ args.text, decide (c ≠ ')') = true := by
    intro c hc
    have hne : c ≠ ')' := fun heq => args.closed (heq ▸ hc)
    simp [hne]
  have hdrop : (args.text ++ [')'] ++ rest).dropWhile (· ≠ ')') = ')' :: rest := by
    rw [append_assoc, dropWhile_append_of_pos hall]
    exact dropWhile_cons_of_neg (by simp)
  rw [cons_append, pastArgs, hdrop]

theorem parseParts_bare {readType readFields : Text → Parsed} {word : Text}
    (hword : word ≠ ['v', 'a', 'r', 'i', 'a', 'n', 't']) (hrest : rest.head? ≠ some '<') :
    parseParts readType readFields word rest = .ok (none, rest) := by
  unfold parseParts
  rw [if_neg hword]
  split
  · exact absurd rfl hrest
  · rfl

theorem lower_ascii (unicode : Unicode) (h : ∀ c ∈ text, c.toNat < 128) :
    unicode.lower text = text.map Char.toLower := by
  obtain ⟨rest, hlower, hrest⟩ := unicode.lower_ascii text [] h
  rw [append_nil] at hlower
  rw [hlower, hrest rfl, append_nil]

section
variable {unicode : Unicode}

variable {turns : ℕ} {rest : Text}

theorem parse_word (word : Word) {after : Text} (hafter : ∀ c ∈ after.head?, endsIdent c = true)
    (hargs : pastArgs (skipWs after) = .ok rest) :
    parse unicode (turns + 1) (word.text ++ after) =
      parseParts (parse unicode turns) (parseFields unicode turns [])
        (word.text.map Char.toLower) rest := by
  have hlower := lower_ascii unicode fun c hc => wordChar_ascii (word.plain c hc)
  rw [parse, ident_word word hafter, hargs, hlower]
  rfl

theorem parse_scalar (name : ScalarName) (args : Option Args) (words : List Word)
    (h : Follows rest) :
    ∃ left, parse unicode (turns + 1) (name.text ++ (argsText args ++ (wordsText words ++ rest))) =
        .ok (none, left) ∧
      (left = wordsText words ++ rest ∨ left = skipWs (wordsText words ++ rest)) := by
  have hwords := follows_words words h
  cases args with
  | none =>
    have hskipped := hwords.skipped
    have hargs : pastArgs (skipWs (wordsText words ++ rest)) =
        .ok (skipWs (wordsText words ++ rest)) :=
      pastArgs_other fun hhead => (hskipped '(' hhead).1 rfl
    refine ⟨_, ?_, .inr rfl⟩
    rw [argsText, nil_append, parse_word name.toWord hwords.ident hargs]
    exact parseParts_bare name.other fun hhead => (hskipped '<' hhead).2 rfl
  | some args =>
    refine ⟨_, ?_, .inl rfl⟩
    have hopen : skipWs (argsText (some args) ++ (wordsText words ++ rest)) =
        argsText (some args) ++ (wordsText words ++ rest) :=
      skipWs_solid (by rintro c ⟨⟩; decide)
    rw [parse_word name.toWord (by rintro c ⟨⟩; decide) (hopen ▸ pastArgs_args args _)]
    exact parseParts_bare name.other hwords.unopened

theorem parse_variant (h : Follows rest) :
    parse unicode (turns + 1) (['v', 'a', 'r', 'i', 'a', 'n', 't'] ++ rest) =
      .ok (some .variant, skipWs rest) := by
  have hargs : pastArgs (skipWs rest) = .ok (skipWs rest) :=
    pastArgs_other fun hhead => (h.skipped '(' hhead).1 rfl
  rw [parse_word ⟨['v', 'a', 'r', 'i', 'a', 'n', 't'], by decide, by decide⟩ h.ident hargs]
  rfl

theorem parse_open (word : Word) (hword : word.text.map Char.toLower = word.text)
    (hother : word.text ≠ ['v', 'a', 'r', 'i', 'a', 'n', 't']) (rest : Text) :
    parse unicode (turns + 1) (word.text ++ '<' :: rest) =
      parseInside (parse unicode turns) (parseFields unicode turns []) word.text rest := by
  have hopen : skipWs ('<' :: rest) = '<' :: rest := skipWs_solid (by rintro c ⟨⟩; decide)
  have hargs : pastArgs (skipWs ('<' :: rest)) = .ok ('<' :: rest) := by
    rw [hopen]
    exact pastArgs_other (by simp)
  rw [parse_word word (by rintro c ⟨⟩; decide) hargs, hword, parseParts, if_neg hother]

theorem skipped_end (h : ∃ c more, rest = c :: more ∧ (c = ',' ∨ c = '>')) :
    skipField .outside rest = rest := by
  obtain ⟨c, more, rfl, hc⟩ := h
  rw [skipField, if_pos hc]

theorem more_ends (fields : Fields) (rest : Text) :
    ∃ c more, fields.more ++ rest = c :: more ∧ (c = ',' ∨ c = '>') := by
  cases fields with
  | nil => exact ⟨'>', rest, rfl, .inr rfl⟩
  | cons name type trailers fields => exact ⟨',', _, rfl, .inl rfl⟩

theorem follows_more (fields : Fields) (rest : Text) : Follows (fields.more ++ rest) := by
  obtain ⟨c, more, heq, hc⟩ := more_ends fields rest
  rw [heq]
  exact .ends hc more

/-- What a type's reading comes to: the type pruned, and no more of what stands behind it than the
end of a field is looked for over; and nothing of it where no words stand behind the type. -/
def Reads (unicode : Unicode) (type : Ty) (rest : Text) (read : Parsed) : Prop :=
  ∃ left, read = .ok (type.prune unicode, left) ∧
    skipField .outside left = skipField .outside rest ∧
    (type.Plain → left = rest ∨ left = skipWs rest)

theorem parseFields_member (name : Name) {type : Ty} (trailers : List Trailer) (fields : Fields)
    (acc : Dict Text Tree)
    (htype : Reads unicode type (trailersText trailers ++ (fields.more ++ rest))
      (parse unicode turns (type.text ++ (trailersText trailers ++ (fields.more ++ rest))))) :
    parseFields unicode (turns + 1) acc
        ((name.spelled ++ ':' :: (type.text ++ (trailersText trailers ++ fields.more))) ++ rest) =
      nextField (parseFields unicode turns) (add unicode acc name.text (type.prune unicode))
        (fields.more ++ rest) := by
  obtain ⟨left, hread, hleft, -⟩ := htype
  have htext : (name.spelled ++
      ':' :: (type.text ++ (trailersText trailers ++ fields.more))) ++ rest =
      name.spelled ++ ':' :: (type.text ++ (trailersText trailers ++ (fields.more ++ rest))) := by
    simp
  have hcolon : ∀ text, skipWs (':' :: text) = ':' :: text :=
    fun text => skipWs_solid (by rintro c ⟨⟩; decide)
  have hend : skipField .outside left = fields.more ++ rest := by
    rw [hleft, skipField_trailers, skipped_end (more_ends fields rest)]
  rw [htext, parseFields_cons _ _ (by simp), ident_name, hcolon, tail_cons, hread]
  change nextField _ _ (skipField .outside left) = _
  rw [hend]

theorem update_kept (acc : Dict Text Tree) (name : Name) (type : Ty) (trailers : List Trailer)
    (fields : Fields) :
    acc.update ((Fields.cons name type trailers fields).kept unicode) =
      (add unicode acc name.text (type.prune unicode)).update (fields.kept unicode) := by
  rw [Fields.kept]
  cases type.prune unicode with
  | none => rfl
  | some tree => rfl

theorem Fields.kept_names : ∀ fields : Fields,
    ((fields.kept unicode).map Prod.fst).Sublist (fields.names unicode)
  | .nil => List.Sublist.refl []
  | .cons name type _ fields => by
    have hrest := fields.kept_names
    rw [Fields.kept, Fields.names]
    cases type.prune unicode with
    | none => exact hrest.cons _
    | some tree => exact hrest.cons_cons _

theorem skipped_close (rest : Text) : skipField .outside ('>' :: rest) = '>' :: rest := rfl

theorem reads_array {element : Ty} (h : Reads unicode element ('>' :: rest)
      (parse unicode turns (element.text ++ '>' :: rest))) :
    parse unicode (turns + 1) ((Ty.array element).text ++ rest) =
      .ok ((Ty.array element).prune unicode, rest) := by
  obtain ⟨left, hread, hleft, -⟩ := h
  have htext : (Ty.array element).text ++ rest =
      ['a', 'r', 'r', 'a', 'y'] ++ '<' :: (element.text ++ '>' :: rest) := by
    simp [Ty.text]
  rw [htext, parse_open ⟨['a', 'r', 'r', 'a', 'y'], by decide, by decide⟩ rfl (by decide),
    parseInside, if_pos rfl, hread]
  change Except.ok (_, (skipField .outside left).tail) = _
  rw [hleft, skipped_close, tail_cons, Ty.prune]

theorem reads_map {key value : Ty} (hplain : key.Plain)
    (hkey : Reads unicode key (',' :: (value.text ++ '>' :: rest))
      (parse unicode turns (key.text ++ ',' :: (value.text ++ '>' :: rest))))
    (hvalue : Reads unicode value ('>' :: rest)
      (parse unicode turns (value.text ++ '>' :: rest))) :
    parse unicode (turns + 1) ((Ty.map key value).text ++ rest) =
      .ok ((Ty.map key value).prune unicode, rest) := by
  obtain ⟨behind, hread, -, hbehind⟩ := hkey
  obtain ⟨left, hread', hleft, -⟩ := hvalue
  have htext : (Ty.map key value).text ++ rest =
      ['m', 'a', 'p'] ++ '<' :: (key.text ++ ',' :: (value.text ++ '>' :: rest)) := by
    simp [Ty.text]
  have hcomma : ∀ text, skipWs (',' :: text) = ',' :: text :=
    fun text => skipWs_solid (by rintro c ⟨⟩; decide)
  have hplace : (skipWs behind).tail = value.text ++ '>' :: rest := by
    obtain rfl | rfl := hbehind hplain
    · rw [hcomma, tail_cons]
    · rw [hcomma, hcomma, tail_cons]
  rw [htext, parse_open ⟨['m', 'a', 'p'], by decide, by decide⟩ rfl (by decide), parseInside,
    if_neg (by decide), if_pos rfl, hread]
  change Except.map _ (parse unicode turns (skipWs behind).tail) = _
  rw [hplace, hread']
  change Except.ok (_, (skipField .outside left).tail) = _
  rw [hleft, skipped_close, tail_cons, Ty.prune]

theorem parse_struct {turns : ℕ} (rest : Text) :
    parse unicode (turns + 1) (['s', 't', 'r', 'u', 'c', 't'] ++ '<' :: rest) =
      match skipWs rest with
      | '>' :: rest => .ok (none, rest)
      | rest => parseFields unicode turns [] rest := by
  rw [parse_open ⟨['s', 't', 'r', 'u', 'c', 't'], by decide, by decide⟩ rfl (by decide),
    parseInside]
  exact (if_neg (by decide)).trans ((if_neg (by decide)).trans (if_pos rfl))

theorem parse_fields (name : Name) (text : Text) :
    parse unicode (turns + 1) (['s', 't', 'r', 'u', 'c', 't'] ++ '<' :: (name.spelled ++ text)) =
      parseFields unicode turns [] (name.spelled ++ text) := by
  obtain ⟨c, more, htext, hsolid, hclose⟩ :
      ∃ c more, name.spelled ++ text = c :: more ∧ isSpace c = false ∧ c ≠ '>' := by
    cases name with
    | quoted name => exact ⟨'`', _, rfl, by decide, by decide⟩
    | bare word =>
      obtain ⟨c, more, hword⟩ := exists_cons_of_ne_nil word.nonempty
      have hc := word.plain c (by rw [hword]; exact mem_cons_self)
      refine ⟨c, more ++ text, ?_, wordChar_solid hc, wordChar_ne hc (by decide)⟩
      rw [Name.spelled, hword]
      rfl
  rw [parse_struct, htext, skipWs_solid (by rintro d ⟨⟩; exact hsolid)]
  split
  · rename_i heq
    exact absurd (List.cons.inj heq).1 hclose
  · rfl

mutual

/-- A type is read off its text, in front of anything that can follow. -/
theorem Ty.reads (t : Ty) (hvalid : t.Valid unicode) (hkeys : t.KeysPlain) (turns : ℕ)
    {rest : Text} (hrest : Follows rest) (hturns : (t.text ++ rest).length < turns) :
    Reads unicode t rest (parse unicode turns (t.text ++ rest)) := by
  obtain ⟨turns, rfl⟩ : ∃ fewer, turns = fewer + 1 := ⟨turns - 1, by omega⟩
  cases t with
  | variant => exact ⟨_, parse_variant hrest, skipField_skipWs rest, fun _ => .inr rfl⟩
  | scalar name args words =>
    have htext : (Ty.scalar name args words).text ++ rest =
        name.text ++ (argsText args ++ (wordsText words ++ rest)) := by
      simp [Ty.text]
    obtain ⟨left, hread, hleft⟩ := @parse_scalar unicode turns rest name args words hrest
    rw [htext]
    refine ⟨left, hread, ?_, ?_⟩
    · obtain rfl | rfl := hleft
      · exact skipField_words words rest
      · exact (skipField_skipWs _).trans (skipField_words words rest)
    · intro hplain
      rw [Ty.Plain] at hplain
      subst hplain
      exact hleft
  | array element =>
    have hinner := element.reads hvalid hkeys turns (.ends (.inr rfl) rest) (by
      simp only [Ty.text, length_append, length_cons, length_nil] at hturns ⊢
      omega)
    exact ⟨rest, reads_array hinner, rfl, fun _ => .inl rfl⟩
  | map key value =>
    obtain ⟨-, hkey, hvalue⟩ := hvalid
    obtain ⟨hplain, hkeykeys, hvaluekeys⟩ := hkeys
    have hkey := key.reads hkey hkeykeys turns
      (.ends (.inl rfl) (value.text ++ '>' :: rest)) (by
        simp only [Ty.text, length_append, length_cons, length_nil] at hturns ⊢
        omega)
    have hvalue := value.reads hvalue hvaluekeys turns (.ends (.inr rfl) rest) (by
      simp only [Ty.text, length_append, length_cons, length_nil] at hturns ⊢
      omega)
    exact ⟨rest, reads_map hplain hkey hvalue, rfl, fun _ => .inl rfl⟩
  | struct fields =>
    refine ⟨rest, ?_, rfl, fun _ => .inl rfl⟩
    cases fields with
    | nil => exact parse_struct ('>' :: rest)
    | cons name type trailers fields =>
      obtain ⟨turns, rfl⟩ : ∃ fewer, turns = fewer + 1 := by
        refine ⟨turns - 1, ?_⟩
        simp only [Ty.text, length_append, length_cons] at hturns
        omega
      simp only [Ty.text, Fields.text, length_append, length_cons,
        length_nil] at hturns
      have htype := type.reads hvalid.2.1 hkeys.1 turns
        (follows_trailers trailers (follows_more fields rest)) (by
          simp only [length_append]
          omega)
      have htext : (Ty.struct (.cons name type trailers fields)).text ++ rest =
          ['s', 't', 'r', 'u', 'c', 't'] ++ '<' :: (name.spelled ++
            (':' :: (type.text ++ (trailersText trailers ++ fields.more)) ++ rest)) := by
        simp [Ty.text, Fields.text]
      have hmember := parseFields_member name trailers fields [] htype
      rw [append_assoc] at hmember
      rw [htext, parse_fields, hmember,
        fields.reads_more hvalid.2.2 hkeys.2 (by simp only [length_append]; omega),
        ← update_kept [] name type trailers fields, Ty.prune,
        Dict.update_nil (hvalid.1.sublist (Fields.kept_names _))]

theorem Fields.reads_more (fields : Fields) (hvalid : fields.Valid unicode)
    (hkeys : fields.KeysPlain) {acc : Dict Text Tree} {turns : ℕ} {rest : Text}
    (hturns : (fields.more ++ rest).length ≤ turns) :
    nextField (parseFields unicode turns) acc (fields.more ++ rest) =
      .ok (structOf (acc.update (fields.kept unicode)), rest) := by
  cases fields with
  | nil => rfl
  | cons name type trailers fields =>
    simp only [Fields.more, length_append, length_cons] at hturns
    obtain ⟨turns, rfl⟩ : ∃ fewer, turns = fewer + 1 := ⟨turns - 1, by omega⟩
    have htype := type.reads hvalid.1 hkeys.1 turns
      (follows_trailers trailers (follows_more fields rest)) (by
        simp only [length_append]
        omega)
    rw [Fields.more, cons_append]
    change parseFields unicode (turns + 1) acc _ = _
    rw [tail_cons, parseFields_member name trailers fields acc htype,
      fields.reads_more hvalid.2 hkeys.2 (by simp only [length_append]; omega),
      update_kept acc name type trailers fields]

end

/-- The last character is no blank. -/
def EndsSolid (text : Text) : Prop := ∃ c ∈ text.getLast?, isSpace c = false

theorem EndsSolid.after {text : Text} (h : EndsSolid text) (first : Text) :
    EndsSolid (first ++ text) := by
  obtain ⟨c, hc, hsolid⟩ := h
  refine ⟨c, ?_, hsolid⟩
  rw [Option.mem_def] at hc ⊢
  rw [List.getLast?_append, hc]
  rfl

theorem endsSolid_word (word : Word) : EndsSolid word.text := by
  have hlast := List.getLast?_eq_some_getLast word.nonempty
  exact ⟨_, hlast, wordChar_solid (word.plain _ (getLast_mem word.nonempty))⟩

theorem endsSolid_close (c : Char) (hc : isSpace c = false) (first : Text) :
    EndsSolid (first ++ [c]) :=
  EndsSolid.after ⟨c, rfl, hc⟩ first

theorem endsSolid_more : ∀ fields : Fields, EndsSolid fields.more
  | .nil => endsSolid_close '>' (by decide) []
  | .cons name type trailers fields => by
    have htext : (Fields.cons name type trailers fields).more =
        (',' :: (name.spelled ++ ':' :: (type.text ++ trailersText trailers))) ++ fields.more := by
      simp [Fields.more]
    rw [htext]
    exact (endsSolid_more fields).after _

theorem endsSolid_scalar (name : ScalarName) (args : Option Args) (words : List Word) :
    EndsSolid (name.text ++ (argsText args ++ wordsText words)) := by
  obtain rfl | ⟨words, word, rfl⟩ := eq_nil_or_concat words
  · cases args with
    | none =>
      have hname := endsSolid_word name.toWord
      simpa [argsText, wordsText] using hname
    | some args =>
      have hclose := endsSolid_close ')' (by decide) (name.text ++ '(' :: args.text)
      simpa [argsText, wordsText] using hclose
  · have hword := (endsSolid_word word).after
      (name.text ++ (argsText args ++ (wordsText words ++ [' '])))
    simpa [wordsText] using hword

theorem Ty.solid (t : Ty) : Solid t.text := by
  cases t with
  | variant => exact ⟨⟨'v', rfl, by decide⟩, 't', rfl, by decide⟩
  | scalar name args words =>
    refine ⟨?_, endsSolid_scalar name args words⟩
    obtain ⟨c, more, hname⟩ := exists_cons_of_ne_nil name.nonempty
    have hc := name.plain c (by rw [hname]; exact mem_cons_self)
    refine ⟨c, ?_, wordChar_solid hc⟩
    rw [Ty.text, hname]
    rfl
  | array element =>
    exact ⟨⟨'a', rfl, by decide⟩, (endsSolid_close '>' (by decide) element.text).after _⟩
  | map key value =>
    have hlast := endsSolid_close '>' (by decide) (key.text ++ ',' :: value.text)
    refine ⟨⟨'m', rfl, by decide⟩, ?_⟩
    rw [append_assoc] at hlast
    exact hlast.after _
  | struct fields =>
    refine ⟨⟨'s', rfl, by decide⟩, ?_⟩
    apply EndsSolid.after
    cases fields with
    | nil => exact endsSolid_close '>' (by decide) []
    | cons name type trailers fields =>
      have hmore := (endsSolid_more fields).after
        (name.spelled ++ ':' :: (type.text ++ trailersText trailers))
      simpa [Fields.text] using hmore

/-- The reader finds the VARIANTs of a type none of whose maps has words behind its key. -/
theorem variantTree_text {t : Ty} (hvalid : t.Valid unicode) (hkeys : t.KeysPlain) :
    variantTree unicode t.text = .ok (t.prune unicode) := by
  have hreads := t.reads hvalid hkeys (t.text.length + 1) .done (by simp)
  rw [append_nil] at hreads
  obtain ⟨left, hread, -⟩ := hreads
  unfold variantTree
  rw [strip_solid t.solid]
  dsimp only
  rw [hread]

end

end DeltaSwamp.Variant
