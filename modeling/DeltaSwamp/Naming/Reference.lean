import DeltaSwamp.Storage.Merge

/-!
# Table references

`TableRef.full_name`, `split_identifier` and `parse_ref` of `identity.py`.
-/

namespace DeltaSwamp.Naming

open List

open Storage (isSpace strip)

inductive RefKind where
  | catalog
  | path
  deriving DecidableEq

structure TableRef where
  kind : RefKind
  catalog : Option Text := none
  schema : Option Text := none
  table : Option Text := none
  path : Option Text := none
  scheme : Option Text := none
  endpoint : Option Text := none
  raw : Text := []
  deriving DecidableEq

/-- An `InvalidReferenceError`. -/
inductive InvalidReference where
  | notCatalog (raw : Text)
  | unterminated (name : Text)
  | emptyPart (name : Text)
  | empty
  | dbfs (ref : Text)
  | wasb (ref : Text)
  | unsupportedScheme (scheme ref : Text)
  | noBody (ref : Text)
  | slashInName (ref scheme : Text)
  | noTable (ref : Text)
  /-- Not exactly a database and a table. -/
  | notTwoParts (ref : Text) (parts : List Text)
  | glueSegments (ref : Text)
  | noDefaultCatalog (raw : Text)
  | noDefaultSchema (raw : Text)
  | tooManyParts (raw : Text) (count : Nat)
  deriving DecidableEq

def isAscii (c : Char) : Bool := c.toNat < 128

/-- A character that is safe bare. -/
def isWordChar (c : Char) : Bool := Text.isAsciiAlphanumeric c || c = '_'

/-- Whether `_quote` leaves a part bare. -/
def isBare (part : Text) : Bool :=
  part ≠ [] && part.all isAscii && !(part.head?.any Text.isAsciiDigit) && part.all isWordChar

/-- Backticks doubled. -/
def doubled (part : Text) : Text := part.flatMap fun c => if c = '`' then ['`', '`'] else [c]

/-- `_quote` -/
def quote (part : Text) : Text :=
  if isBare part then part else '`' :: (doubled part ++ ['`'])

/-- `".".join(...)` -/
def dotted : List Text → Text
  | [] => []
  | [part] => part
  | part :: rest => part ++ '.' :: dotted rest

def TableRef.fullName (ref : TableRef) : Except InvalidReference Text :=
  if ref.kind ≠ .catalog then .error (.notCatalog ref.raw)
  else .ok (dotted (([ref.catalog, ref.schema, ref.table].filterMap id).map quote))

/-- Characters of a part, with whether they came from inside backticks. -/
abbrev Marked := List (Char × Bool)

def isOuterSpace (e : Char × Bool) : Bool := !e.2 && isSpace e.1

/-- `finish` -/
def finish (buf : Marked) : Text :=
  (((buf.dropWhile isOuterSpace).reverse.dropWhile isOuterSpace).reverse).map Prod.fst

/-- The loop of `split_identifier`: whether it ends in quotes, the last part and those before. -/
def splitLoop : Bool → Marked → List Text → Text → Bool × Marked × List Text
  | quoted, buf, parts, [] => (quoted, buf, parts)
  | true, buf, parts, c :: rest =>
    if c = '`' then
      match rest with
      | d :: more =>
        if d = '`' then splitLoop true (buf ++ [('`', true)]) parts more
        else splitLoop false buf parts (d :: more)
      | [] => splitLoop false buf parts []
    else splitLoop true (buf ++ [(c, true)]) parts rest
  | false, buf, parts, c :: rest =>
    if c = '`' then splitLoop true buf parts rest
    else if c = '.' then splitLoop false [] (parts ++ [finish buf]) rest
    else splitLoop false (buf ++ [(c, false)]) parts rest

def splitIdentifier (name : Text) : Except InvalidReference (List Text) :=
  let (quoted, buf, parts) := splitLoop false [] [] name
  if quoted then .error (.unterminated name)
  else if [] ∈ parts ++ [finish buf] then .error (.emptyPart name)
  else .ok (parts ++ [finish buf])

/-- `_parse_name` -/
def parseName (name : Text) (defaultCatalog defaultSchema : Option Text) (raw : Text) :
    Except InvalidReference TableRef := do
  let found (catalog schema table : Text) : TableRef :=
    { kind := .catalog, catalog := some catalog, schema := some schema, table := some table,
      scheme := some "uc".toList, raw := raw }
  match ← splitIdentifier name with
  | [catalog, schema, table] => return found catalog schema table
  | [schema, table] =>
    match defaultCatalog with
    | none => throw (.noDefaultCatalog raw)
    | some catalog => return found catalog schema table
  | [table] =>
    match defaultCatalog, defaultSchema with
    | some catalog, some schema => return found catalog schema table
    | _, _ => throw (.noDefaultSchema raw)
  | parts => throw (.tooManyParts raw parts.length)

/-- `_unquoted` -/
def unquoted : Bool → Text → Text
  | _, [] => []
  | quoted, c :: rest =>
    if c = '`' then unquoted (!quoted) rest
    else if quoted then unquoted quoted rest
    else c :: unquoted quoted rest

/-- `_split_unquoted` -/
def splitUnquoted (sep : Char) : Bool → Text → Text → List Text
  | _, buf, [] => [buf]
  | quoted, buf, c :: rest =>
    let quoted := if c = '`' then !quoted else quoted
    if c = sep && !quoted then buf :: splitUnquoted sep quoted [] rest
    else splitUnquoted sep quoted (buf ++ [c]) rest

structure Env where
  /-- `str.lower`, which goes character by character through ASCII. -/
  lower : Text → Text
  lower_ascii : ∀ a b, (∀ c ∈ a, c.toNat < 128) → a.map Char.toLower <+: lower (a ++ b)
  /-- `os.path.exists` -/
  exists' : Text → Bool
  /-- `os.path.normpath` -/
  normpath : Text → Text
  /-- `os.path.expanduser` -/
  expanduser : Text → Text

section
variable (env : Env)

/-- `os.path.dirname` -/
def dirname (path : Text) : Text :=
  let head := (path.reverse.dropWhile (· ≠ '/')).reverse
  if head.all (· = '/') then head else (head.reverse.dropWhile (· = '/')).reverse

/-- The loop of `_exists_locally`; a directory's name is shorter than the path in it. -/
def existsAbove : Nat → Text → Bool
  | 0, _ => false
  | fuel + 1, current =>
    if current ∈ ["/", "/mnt", "/dbfs", ""].map String.toList then false
    else env.exists' current || existsAbove fuel (dirname current)

/-- `_exists_locally` -/
def existsLocally (path : Text) : Bool :=
  existsAbove env ((env.normpath path).length + 1) (env.normpath path)

def startsWithAny (text : Text) (starts : List String) : Bool :=
  starts.any fun start => start.toList.isPrefixOf text

def unreachablePrefixes : List String := ["dbfs:/", "/dbfs/", "/mnt/"]

def storageSchemes : List String :=
  ["s3", "s3a", "s3n", "gs", "gcs", "abfs", "abfss", "az", "adl", "file", "memory"]

def catalogSchemes : List String := ["uc", "unity", "hms", "hive", "glue", "deltasharing"]

def isAsciiLetter (c : Char) : Bool := ('a' ≤ c && c ≤ 'z') || ('A' ≤ c && c ≤ 'Z')

def isSchemeChar (c : Char) : Bool := Text.isAsciiAlphanumeric c || c ∈ ['+', '.', '-']

/-- `_scheme_of` -/
def schemeOf (ref : Text) : Option Text :=
  if ref.head?.any isAsciiLetter && "://".toList.isPrefixOf (ref.dropWhile isSchemeChar) then
    some ((ref.takeWhile isSchemeChar).map Char.toLower)
  else none

/-- `_DRIVE`; the end of a text is before its last line break too. -/
def isDrive : Text → Bool
  | [c, ':'] => isAsciiLetter c
  | c :: ':' :: d :: rest => isAsciiLetter c && (d = '\\' || d = '/' || (d = '\n' && rest.isEmpty))
  | _ => false

/-- `_looks_like_path` -/
def looksLikePath (ref : Text) : Bool :=
  ref ∈ [['.'], ['.', '.']] || startsWithAny ref ["~", "/", "./", "../", "\\"] || isDrive ref ||
    (unquoted false ref).any fun c => c = '/' || c = '\\'

/-- `_local_path` -/
def localPath (path : Text) : Text :=
  if ['~'].isPrefixOf path then env.expanduser path else path

def rstripSlashes (text : Text) : Text := (text.reverse.dropWhile (· = '/')).reverse

/-- An empty text is no value. -/
def nonEmpty (text : Text) : Option Text := if text = [] then none else some text

/-- `_parse_catalog_uri`, of one of `catalogSchemes`. -/
def parseCatalogUri (ref scheme : Text) (defaultCatalog defaultSchema : Option Text) :
    Except InvalidReference TableRef := do
  let body := ref.drop (scheme.length + 3)
  if body = [] then throw (.noBody ref)
  else if scheme ∈ ["uc", "unity", "deltasharing"].map String.toList then
    if '/' ∈ unquoted false body then throw (.slashInName ref scheme)
    else
      let parsed ← parseName body defaultCatalog defaultSchema ref
      return { kind := .catalog, catalog := parsed.catalog, schema := parsed.schema,
               table := parsed.table, scheme := some scheme, raw := ref }
  else if scheme ∈ ["hms", "hive"].map String.toList then
    let body := if "thrift://".toList.isPrefixOf (env.lower body) then body.drop 9 else body
    let endpoint := body.takeWhile (· ≠ '/')
    let rest := rstripSlashes ((body.dropWhile (· ≠ '/')).drop 1)
    if rest = [] then throw (.noTable ref)
    else
      let parts := (← (splitUnquoted '/' false [] rest).mapM splitIdentifier).flatten
      match parts with
      | [schema, table] =>
        return { kind := .catalog, catalog := some "hive_metastore".toList, schema := some schema,
                 table := some table, scheme := some "hms".toList, endpoint := nonEmpty endpoint,
                 raw := ref }
      | parts => throw (.notTwoParts ref parts)
  else
    let segments := splitUnquoted '/' false [] (rstripSlashes body)
    if 2 < segments.length then throw (.glueSegments ref)
    else
      let catalogId := if segments.length = 2 then nonEmpty (strip (segments.headD [])) else none
      match ← splitIdentifier (segments.getLastD []) with
      | [schema, table] =>
        return { kind := .catalog, catalog := some (catalogId.getD "glue".toList),
                 schema := some schema, table := some table, scheme := some "glue".toList,
                 endpoint := catalogId, raw := ref }
      | parts => throw (.notTwoParts ref parts)

/-- `parse_ref` of a stripped reference that names neither an unreachable nor a `file:` path. -/
def parseStripped (ref : Text) (forcePath : Bool) (defaultCatalog defaultSchema : Option Text) :
    Except InvalidReference TableRef :=
  match schemeOf ref with
  | some scheme =>
    if scheme ∈ catalogSchemes.map String.toList then
      parseCatalogUri env ref scheme defaultCatalog defaultSchema
    else if scheme ∈ ["wasb", "wasbs"].map String.toList then .error (.wasb ref)
    else if scheme ∈ storageSchemes.map String.toList then
      .ok { kind := .path, path := some ref, scheme := some scheme, raw := ref }
    else .error (.unsupportedScheme scheme ref)
  | none =>
    if forcePath || looksLikePath ref then
      .ok { kind := .path, path := some (localPath env ref), scheme := some "file".toList,
            raw := ref }
    else parseName ref defaultCatalog defaultSchema ref

/-- `parse_ref`; `forcePath` of a `pathlib.Path`. -/
def parseRef (given : Text) (forcePath : Bool) (defaultCatalog defaultSchema : Option Text) :
    Except InvalidReference TableRef :=
  let ref := strip given
  if ref = [] then .error .empty
  else if startsWithAny (env.lower ref) unreachablePrefixes &&
      !(['/'].isPrefixOf ref && existsLocally env ref) then .error (.dbfs ref)
  else if startsWithAny (env.lower ref) ["file:"] && !startsWithAny (env.lower ref) ["file://"] then
    .ok { kind := .path, path := some ("file:///".toList ++ (ref.drop 5).dropWhile (· = '/')),
          scheme := some "file".toList, raw := ref }
  else parseStripped env ref forcePath defaultCatalog defaultSchema

end

open Storage (isSpace strip)

variable {c : Char}

theorem isWordChar_toNat (h : isWordChar c) :
    48 ≤ c.toNat ∧ c.toNat ≤ 57 ∨ 65 ≤ c.toNat ∧ c.toNat ≤ 90 ∨ c.toNat = 95 ∨
      97 ≤ c.toNat ∧ c.toNat ≤ 122 := by
  simp only [isWordChar, Text.isAsciiAlphanumeric, Text.isAsciiDigit, Bool.or_eq_true,
    Bool.and_eq_true, decide_eq_true_eq, Char.le_def, UInt32.le_iff_toNat_le] at h
  obtain ((h | h) | h) | rfl := h
  · exact .inl h
  · exact .inr (.inr (.inr h))
  · exact .inr (.inl h)
  · exact .inr (.inr (.inl rfl))

theorem ne_of_isWordChar {d : Char} (hc : isWordChar c) (hd : isWordChar d = false) : c ≠ d := by
  rintro rfl
  simp [hc] at hd

theorem isSpace_wordChar (h : isWordChar c) : isSpace c = false := by
  have hbounds := isWordChar_toNat h
  simp only [isSpace, mem_cons, not_mem_nil, or_false, decide_eq_false_iff_not]
  omega

theorem toLower_wordChar (h : isWordChar c) : c.toLower ≠ ':' ∧ c.toLower ≠ '/' := by
  rw [ne_eq, ne_eq, toLower_eq_iff (by decide), toLower_eq_iff (by decide)]
  exact ⟨ne_of_isWordChar h (by decide), ne_of_isWordChar h (by decide)⟩

variable {part : Text}

theorem isBare_iff : isBare part ↔
    part ≠ [] ∧ (∀ c ∈ part, isAscii c) ∧ part.head?.any Text.isAsciiDigit = false ∧
      ∀ c ∈ part, isWordChar c := by
  simp [isBare, and_assoc]

theorem quote_bare (h : isBare part) : quote part = part := by
  simp [quote, h]

theorem quote_ticks (h : ¬ isBare part) : quote part = '`' :: (doubled part ++ ['`']) := by
  simp [quote, h]

theorem doubled_cons (c : Char) (part : Text) :
    doubled (c :: part) = (if c = '`' then ['`', '`'] else [c]) ++ doubled part := rfl

theorem dotted_cons (part next : Text) (rest : List Text) :
    dotted (part :: next :: rest) = part ++ '.' :: dotted (next :: rest) := rfl

theorem finish_kept {buf : Marked} (h : ∀ e ∈ buf, isOuterSpace e = false) :
    finish buf = buf.map Prod.fst := by
  have hfront : buf.dropWhile isOuterSpace = buf := by
    cases buf with
    | nil => rfl
    | cons e rest => simp [h e (by simp)]
  have hback : buf.reverse.dropWhile isOuterSpace = buf.reverse := by
    cases hrev : buf.reverse with
    | nil => rfl
    | cons e rest =>
      have hmem : e ∈ buf := mem_reverse.mp (by simp [hrev])
      simp [h e hmem]
  rw [finish, hfront, hback, reverse_reverse]

theorem splitLoop_bare (h : ∀ c ∈ part, isWordChar c) (buf : Marked) (parts : List Text)
    (rest : Text) :
    splitLoop false buf parts (part ++ rest) =
      splitLoop false (buf ++ part.map fun c => (c, false)) parts rest := by
  induction part generalizing buf with
  | nil => simp
  | cons c part ih =>
    have hc := h c (by simp)
    have htick : c ≠ '`' := ne_of_isWordChar hc (by decide)
    have hdot : c ≠ '.' := ne_of_isWordChar hc (by decide)
    rw [cons_append, splitLoop, if_neg htick, if_neg hdot,
      ih fun d hd => h d (by simp [hd])]
    simp

theorem splitLoop_doubled (part : Text) (buf : Marked) (parts : List Text) {rest : Text}
    (hrest : rest.head? ≠ some '`') :
    splitLoop true buf parts (doubled part ++ '`' :: rest) =
      splitLoop false (buf ++ part.map fun c => (c, true)) parts rest := by
  induction part generalizing buf with
  | nil =>
    cases rest with
    | nil => simp [doubled, splitLoop]
    | cons d more =>
      have hd : d ≠ '`' := by simpa using hrest
      simp [doubled, splitLoop, hd]
  | cons c part ih =>
    rw [doubled_cons]
    by_cases hc : c = '`'
    · subst hc
      simp [splitLoop, ih]
    · rw [if_neg hc, append_assoc, singleton_append, splitLoop.eq_def]
      simp [hc, ih]

theorem splitLoop_quote (part : Text) (parts : List Text) (rest : Text)
    (hrest : rest.head? ≠ some '`') :
    ∃ buf, splitLoop false [] parts (quote part ++ rest) = splitLoop false buf parts rest ∧
      finish buf = part := by
  by_cases hbare : isBare part
  · have hword := (isBare_iff.mp hbare).2.2.2
    refine ⟨part.map fun c => (c, false), ?_, ?_⟩
    · rw [quote_bare hbare, splitLoop_bare hword, nil_append]
    · rw [finish_kept]
      · simp [Function.comp_def]
      · intro e he
        obtain ⟨c, hc, rfl⟩ := mem_map.mp he
        simp [isOuterSpace, isSpace_wordChar (hword c hc)]
  · refine ⟨part.map fun c => (c, true), ?_, ?_⟩
    · have htick : quote part ++ rest = '`' :: (doubled part ++ '`' :: rest) := by
        simp [quote_ticks hbare]
      rw [htick, splitLoop, if_pos rfl, splitLoop_doubled part [] parts hrest, nil_append]
    · rw [finish_kept]
      · simp [Function.comp_def]
      · intro e he
        obtain ⟨c, -, rfl⟩ := mem_map.mp he
        rfl

/-- Quoted names joined by dots are split into the names. -/
theorem splitLoop_dotted {names : List Text} (hne : names ≠ []) (parts : List Text) :
    ∃ buf before, splitLoop false [] parts (dotted (names.map quote)) = (false, buf, before) ∧
      before ++ [finish buf] = parts ++ names := by
  induction names generalizing parts with
  | nil => exact absurd rfl hne
  | cons part rest ih =>
    cases rest with
    | nil =>
      obtain ⟨buf, hloop, hfinish⟩ := splitLoop_quote part parts [] (by simp)
      refine ⟨buf, parts, ?_, by rw [hfinish]⟩
      rw [append_nil] at hloop
      exact hloop
    | cons next rest =>
      let after := dotted ((next :: rest).map quote)
      obtain ⟨buf, hloop, hfinish⟩ :=
        splitLoop_quote part parts ('.' :: after) (by simp)
      obtain ⟨last, before, hlast, hbefore⟩ := ih (by simp) (parts ++ [part])
      refine ⟨last, before, ?_, by simp [hbefore]⟩
      have hdot : splitLoop false buf parts ('.' :: after) =
          splitLoop false [] (parts ++ [finish buf]) after := by
        simp [splitLoop]
      rw [map_cons, map_cons, dotted_cons, ← map_cons, hloop, hdot, hfinish]
      exact hlast

theorem splitIdentifier_dotted {names : List Text} (hne : names ≠ []) (hparts : [] ∉ names) :
    splitIdentifier (dotted (names.map quote)) = .ok names := by
  obtain ⟨buf, before, hloop, hbefore⟩ := splitLoop_dotted hne []
  rw [nil_append] at hbefore
  simp only [splitIdentifier, hloop, hbefore]
  simp [hparts]

end DeltaSwamp.Naming
