import DeltaSwamp.Naming.Reference

/-!
# Quoted names and references

The full name of a catalog reference parses to the same three parts: nothing in
it looks like a location.
-/

namespace DeltaSwamp.Naming

open Storage (isSpace strip)

variable {part : Text}

theorem quote_head (hpart : part ≠ []) :
    ∃ c rest, quote part = c :: rest ∧ (c = '`' ∨ isWordChar c) := by
  by_cases hbare : isBare part
  · obtain ⟨c, rest, rfl⟩ := List.exists_cons_of_ne_nil hpart
    exact ⟨c, rest, quote_bare hbare, .inr ((isBare_iff.mp hbare).2.2.2 c (by simp))⟩
  · exact ⟨'`', _, quote_ticks hbare, .inl rfl⟩

theorem quote_last (hpart : part ≠ []) :
    ∃ front c, quote part = front ++ [c] ∧ (c = '`' ∨ isWordChar c) := by
  by_cases hbare : isBare part
  · refine ⟨part.dropLast, part.getLast hpart, ?_, .inr ?_⟩
    · rw [quote_bare hbare, List.dropLast_append_getLast hpart]
    · exact (isBare_iff.mp hbare).2.2.2 _ (List.getLast_mem hpart)
  · exact ⟨'`' :: doubled part, '`', quote_ticks hbare, .inl rfl⟩

variable {c : Char}

theorem isSpace_edge (h : c = '`' ∨ isWordChar c) : isSpace c = false := by
  obtain rfl | hword := h
  · decide
  · exact isSpace_wordChar hword

theorem dotted_head (rest : List Text) (hpart : part ≠ []) :
    ∃ c text, dotted ((part :: rest).map quote) = c :: text ∧ (c = '`' ∨ isWordChar c) := by
  obtain ⟨c, text, hquote, hedge⟩ := quote_head hpart
  cases rest with
  | nil => exact ⟨c, text, hquote, hedge⟩
  | cons next rest =>
    refine ⟨c, text ++ '.' :: dotted ((next :: rest).map quote), ?_, hedge⟩
    rw [List.map_cons, List.map_cons, dotted_cons, ← List.map_cons, hquote, List.cons_append]

theorem dotted_last (names : List Text) (hne : names ≠ []) (hparts : [] ∉ names) :
    ∃ front c, dotted (names.map quote) = front ++ [c] ∧ (c = '`' ∨ isWordChar c) := by
  induction names with
  | nil => exact absurd rfl hne
  | cons part rest ih =>
    cases rest with
    | nil => exact quote_last fun h => hparts (by simp [h])
    | cons next rest =>
      obtain ⟨front, c, hlast, hedge⟩ := ih (by simp) fun h => hparts (by simp [h])
      refine ⟨quote part ++ '.' :: front, c, ?_, hedge⟩
      rw [List.map_cons, List.map_cons, dotted_cons, ← List.map_cons, hlast]
      simp

variable {text : Text}

theorem strip_edges {d : Char} {front back : Text} (hfirst : text = c :: back)
    (hlast : text = front ++ [d]) (hc : isSpace c = false) (hd : isSpace d = false) :
    strip text = text := by
  have hfront : text.dropWhile isSpace = text := by simp [hfirst, hc]
  have hback : text.reverse.dropWhile isSpace = text.reverse := by simp [hlast, hd]
  rw [strip, hfront, hback, List.reverse_reverse]

/-- No scheme, and no drive letter, can start where no colon ends the scheme characters. -/
def NoColon (text : Text) : Prop := (text.dropWhile isSchemeChar).head? ≠ some ':'

theorem noColon_append {a b : Text} (ha : NoColon a) (hb : NoColon b) : NoColon (a ++ b) := by
  rw [NoColon, List.dropWhile_append]
  split
  · exact hb
  · next hrest =>
    rw [List.isEmpty_iff] at hrest
    obtain ⟨c, rest, hcons⟩ := List.exists_cons_of_ne_nil hrest
    rw [NoColon, hcons] at ha
    rw [hcons]
    exact ha

theorem noColon_quote (part : Text) : NoColon (quote part) := by
  by_cases hbare : isBare part
  · rw [quote_bare hbare, NoColon]
    intro hcolon
    have hmem : ':' ∈ part :=
      (List.dropWhile_subset _) (List.mem_of_mem_head? hcolon)
    exact absurd ((isBare_iff.mp hbare).2.2.2 ':' hmem) (by decide)
  · rw [quote_ticks hbare, NoColon]
    simp [isSchemeChar, Text.isAsciiAlphanumeric, Text.isAsciiDigit]

theorem noColon_dotted (names : List Text) : NoColon (dotted (names.map quote)) := by
  induction names with
  | nil => simp [NoColon, dotted]
  | cons part rest ih =>
    cases rest with
    | nil => exact noColon_quote part
    | cons next rest =>
      rw [List.map_cons, List.map_cons, dotted_cons, ← List.map_cons]
      refine noColon_append (noColon_quote part) ?_
      rw [NoColon, List.dropWhile_cons_of_pos (by decide)]
      exact ih

theorem schemeOf_noColon (h : NoColon text) : schemeOf text = none := by
  rw [schemeOf, if_neg]
  rw [Bool.and_eq_true, List.isPrefixOf_iff_prefix]
  rintro ⟨-, rest, hrest⟩
  rw [NoColon, ← hrest] at h
  exact h rfl

theorem isSchemeChar_letter (h : isAsciiLetter c) : isSchemeChar c := by
  simp only [isAsciiLetter, Bool.or_eq_true] at h
  simp only [isSchemeChar, Text.isAsciiAlphanumeric, Bool.or_eq_true]
  tauto

theorem isDrive_noColon (h : NoColon text) : isDrive text = false := by
  have hletter : ∀ {c rest}, text = c :: ':' :: rest → isAsciiLetter c = false := by
    intro c rest htext
    rw [← Bool.not_eq_true]
    intro hc
    rw [NoColon, htext, List.dropWhile_cons_of_pos (isSchemeChar_letter hc)] at h
    exact h rfl
  rw [isDrive.eq_def]
  split
  · exact hletter rfl
  · simp [hletter rfl]
  · rfl

theorem unquoted_bare (h : ∀ c ∈ part, isWordChar c) (rest : Text) :
    unquoted false (part ++ rest) = part ++ unquoted false rest := by
  induction part with
  | nil => rfl
  | cons c part ih =>
    have htick : c ≠ '`' := ne_of_isWordChar (h c (by simp)) (by decide)
    rw [List.cons_append, unquoted, if_neg htick, ih fun d hd => h d (by simp [hd])]
    rfl

theorem unquoted_doubled (part rest : Text) :
    unquoted true (doubled part ++ '`' :: rest) = unquoted false rest := by
  induction part with
  | nil => simp [doubled, unquoted]
  | cons c part ih =>
    rw [doubled_cons]
    by_cases hc : c = '`'
    · simp [hc, unquoted, ih]
    · simp [hc, unquoted, ih]

theorem unquoted_quote (part rest : Text) :
    ∃ bare, (∀ c ∈ bare, isWordChar c) ∧
      unquoted false (quote part ++ rest) = bare ++ unquoted false rest := by
  by_cases hbare : isBare part
  · have hword := (isBare_iff.mp hbare).2.2.2
    exact ⟨part, hword, by rw [quote_bare hbare, unquoted_bare hword]⟩
  · refine ⟨[], by simp, ?_⟩
    rw [quote_ticks hbare, List.cons_append, List.append_assoc, unquoted, if_pos rfl]
    exact unquoted_doubled part rest

theorem unquoted_dotted (names : List Text) :
    ∀ c ∈ unquoted false (dotted (names.map quote)), isWordChar c ∨ c = '.' := by
  induction names with
  | nil => simp [dotted, unquoted]
  | cons part rest ih =>
    cases rest with
    | nil =>
      obtain ⟨bare, hbare, heq⟩ := unquoted_quote part []
      rw [List.append_nil] at heq
      rw [List.map_cons, List.map_nil, dotted, heq]
      intro c hc
      exact .inl (hbare c (by simpa [unquoted] using hc))
    | cons next rest =>
      obtain ⟨bare, hbare, heq⟩ :=
        unquoted_quote part ('.' :: dotted ((next :: rest).map quote))
      rw [List.map_cons, List.map_cons, dotted_cons, ← List.map_cons, heq]
      intro c hc
      rw [List.mem_append] at hc
      obtain hc | hc := hc
      · exact .inl (hbare c hc)
      · rw [unquoted, if_neg (by decide), if_neg (by decide), List.mem_cons] at hc
        obtain rfl | hc := hc
        · exact .inr rfl
        · exact ih c hc

theorem looksLikePath_dotted (rest : List Text) (hpart : part ≠ []) :
    looksLikePath (dotted ((part :: rest).map quote)) = false := by
  obtain ⟨c, text, htext, hedge⟩ := dotted_head rest hpart
  have hne : ∀ d : Char, d ≠ '`' → isWordChar d = false → c ≠ d := by
    rintro d htick hword rfl
    obtain rfl | hc := hedge
    · exact htick rfl
    · rw [hc] at hword
      exact absurd hword (by decide)
  have htilde := hne '~' (by decide) (by decide)
  have hslash := hne '/' (by decide) (by decide)
  have hdot := hne '.' (by decide) (by decide)
  have hback := hne '\\' (by decide) (by decide)
  have hinner : (unquoted false (c :: text)).any (fun c => c = '/' || c = '\\') = false := by
    rw [List.any_eq_false]
    intro d hd
    rw [← htext] at hd
    obtain hword | rfl := unquoted_dotted (part :: rest) d hd
    · simp [ne_of_isWordChar hword (d := '/') (by decide),
        ne_of_isWordChar hword (d := '\\') (by decide)]
    · decide
  have hdrive := isDrive_noColon (noColon_dotted (part :: rest))
  rw [htext] at hdrive ⊢
  simp [looksLikePath, startsWithAny, hdrive, hinner, List.isPrefixOf, htilde.symm, hslash.symm,
    hdot, hdot.symm, hback.symm]

section
variable {env : Env}

/-- A start with a colon or a slash in it, and no dot or backtick. -/
def isLocationStart (start : Text) : Bool :=
  start.any (fun c => c = ':' || c = '/') && start.all fun c => c ≠ '.' && c ≠ '`'

theorem dotted_start (part : Text) (rest : List Text) (hrest : rest ≠ []) :
    ∃ bare mark text, dotted ((part :: rest).map quote) = (bare ++ [mark]) ++ text ∧
      (∀ c ∈ bare, isWordChar c) ∧ (mark = '.' ∨ mark = '`') ∧
      ∀ c ∈ bare ++ [mark], c.toNat < 128 := by
  obtain ⟨next, more, rfl⟩ := List.exists_cons_of_ne_nil hrest
  rw [List.map_cons, List.map_cons, dotted_cons, ← List.map_cons]
  by_cases hbare : isBare part
  · obtain ⟨-, hascii, -, hword⟩ := isBare_iff.mp hbare
    refine ⟨part, '.', dotted ((next :: more).map quote), ?_, hword, .inl rfl, ?_⟩
    · simp [quote_bare hbare]
    · intro c hc
      rw [List.mem_append, List.mem_singleton] at hc
      obtain hc | rfl := hc
      · simpa [isAscii] using hascii c hc
      · decide
  · refine ⟨[], '`', doubled part ++ ['`'] ++ '.' :: dotted ((next :: more).map quote), ?_,
      by simp, .inr rfl, by decide⟩
    simp [quote_ticks hbare]

theorem lower_start {bare text start : Text} {mark : Char} (hword : ∀ c ∈ bare, isWordChar c)
    (hmark : mark = '.' ∨ mark = '`') (hascii : ∀ c ∈ bare ++ [mark], c.toNat < 128)
    (hstart : isLocationStart start) :
    ¬ start <+: env.lower (bare ++ [mark] ++ text) := by
  intro hprefix
  simp only [isLocationStart, Bool.and_eq_true, List.any_eq_true, List.all_eq_true,
    Bool.or_eq_true, decide_eq_true_eq] at hstart
  obtain ⟨⟨sep, hsep, hkind⟩, hplain⟩ := hstart
  have hlower := env.lower_ascii (bare ++ [mark]) text hascii
  rw [List.map_append, List.map_singleton] at hlower
  have hlow : mark.toLower = mark := by
    obtain rfl | rfl := hmark <;> decide
  rw [hlow] at hlower
  obtain hshort | hlong := List.prefix_or_prefix_of_prefix hprefix hlower
  · have hmem := hshort.subset hsep
    rw [List.mem_append, List.mem_singleton] at hmem
    obtain hmem | rfl := hmem
    · obtain ⟨c, hc, rfl⟩ := List.mem_map.mp hmem
      obtain ⟨hcolon, hslash⟩ := toLower_wordChar (hword c hc)
      exact hkind.elim hcolon hslash
    · obtain rfl | rfl := hmark <;> simp at hkind
  · have hmem : mark ∈ start := hlong.subset (by simp)
    obtain ⟨hdot, htick⟩ := hplain mark hmem
    exact hmark.elim hdot htick

theorem startsWithAny_dotted (env : Env) (part : Text) (rest : List Text) (hrest : rest ≠ [])
    (starts : List String)
    (hstarts : starts.all fun start => isLocationStart start.toList) :
    startsWithAny (env.lower (dotted ((part :: rest).map quote))) starts = false := by
  obtain ⟨bare, mark, text, heq, hword, hmark, hascii⟩ := dotted_start part rest hrest
  rw [startsWithAny, List.any_eq_false, heq]
  intro start hstart
  rw [List.isPrefixOf_iff_prefix]
  exact lower_start hword hmark hascii (List.all_eq_true.mp hstarts start hstart)

theorem parseRef_dotted {catalog schema table : Text} (hcatalog : catalog ≠ [])
    (hschema : schema ≠ []) (htable : table ≠ []) (defaultCatalog defaultSchema : Option Text) :
    parseRef env (dotted ([catalog, schema, table].map quote)) false defaultCatalog
        defaultSchema =
      .ok { kind := .catalog, catalog := some catalog, schema := some schema, table := some table,
            scheme := some "uc".toList, raw := dotted ([catalog, schema, table].map quote) } := by
  have hparts : [] ∉ [catalog, schema, table] := by simp [hcatalog.symm, hschema.symm, htable.symm]
  obtain ⟨c, back, hfirst, hc⟩ := dotted_head [schema, table] hcatalog
  obtain ⟨front, d, hlast, hd⟩ := dotted_last [catalog, schema, table] (by simp) hparts
  have hstrip := strip_edges hfirst hlast (isSpace_edge hc) (isSpace_edge hd)
  have hne : dotted ([catalog, schema, table].map quote) ≠ [] := by
    rw [hfirst]
    exact List.cons_ne_nil c back
  have hunreachable := startsWithAny_dotted env catalog [schema, table] (by simp)
    unreachablePrefixes (by decide)
  have hfile := startsWithAny_dotted env catalog [schema, table] (by simp)
    ["file:"] (by decide)
  have hscheme := schemeOf_noColon (noColon_dotted [catalog, schema, table])
  have hpath := looksLikePath_dotted [schema, table] hcatalog
  have hsplit : splitIdentifier _ = .ok [catalog, schema, table] :=
    splitIdentifier_dotted (by simp) hparts
  generalize dotted ([catalog, schema, table].map quote) = name at *
  simp [parseRef, hstrip, hne, hunreachable, hfile, parseStripped, hscheme, hpath, parseName,
    hsplit, bind, Except.bind, pure, Except.pure]

/-- A catalog reference's full name parses to its three parts, and the dotted join of one or
more quoted parts splits into them. -/
theorem names_survive :
    (∀ (env : Env) (defaultCatalog defaultSchema : Option Text) (ref : TableRef)
      (catalog schema table : Text), ref.kind = .catalog → ref.catalog = some catalog →
      ref.schema = some schema → ref.table = some table →
      catalog ≠ [] → schema ≠ [] → table ≠ [] →
      ∃ name, ref.fullName = .ok name ∧
        ∃ parsed, parseRef env name false defaultCatalog defaultSchema = .ok parsed ∧
          parsed.kind = .catalog ∧ parsed.catalog = some catalog ∧
          parsed.schema = some schema ∧ parsed.table = some table) ∧
    ∀ names : List Text, names ≠ [] → [] ∉ names →
      splitIdentifier (dotted (names.map quote)) = .ok names := by
  refine ⟨?_, fun names hne hparts => splitIdentifier_dotted hne hparts⟩
  intro env defaultCatalog defaultSchema ref catalog schema table hkind hcatalog hschema htable
    hc hs ht
  refine ⟨dotted ([catalog, schema, table].map quote), ?_, _,
    parseRef_dotted hc hs ht defaultCatalog defaultSchema, rfl, rfl, rfl, rfl⟩
  simp [TableRef.fullName, hkind, hcatalog, hschema, htable]

/-- A machine without the mounts, where only ASCII has a lower case. -/
def Env.ascii : Env where
  lower text := text.map Char.toLower
  lower_ascii a b _ := by rw [List.map_append]; exact List.prefix_append _ _
  exists' _ := false
  normpath path := path
  expanduser path := path

theorem names_survive_ticks :
    (∃ name, TableRef.fullName (TableRef.mk .catalog (some "main".toList)
        (some " a.b".toList) (some "dbfs:/`t`".toList) none none none []) = .ok name ∧
      ∃ parsed, parseRef .ascii name false none none = .ok parsed ∧ parsed.kind = .catalog ∧
        parsed.catalog = some "main".toList ∧ parsed.schema = some " a.b".toList ∧
        parsed.table = some "dbfs:/`t`".toList) ∧
    splitIdentifier (dotted (["1".toList].map quote)) = .ok ["1".toList] :=
  ⟨names_survive.1 .ascii none none _ _ _ _ rfl rfl rfl rfl (by decide) (by decide) (by decide),
    names_survive.2 _ (by decide) (by decide)⟩

/-- The join of no part at all is an empty name. -/
theorem no_names_refused :
    ¬ ∀ names : List Text, [] ∉ names → splitIdentifier (dotted (names.map quote)) = .ok names := by
  intro h
  exact absurd (h [] (by simp)) (by decide)

end

end DeltaSwamp.Naming
