import DeltaSwamp.Metadata.Covering
import DeltaSwamp.Text

/-!
# The strict reading of property values

`_value_problem` and `parse_byte_size` of `properties.py`: how the engines read
the values that `set_properties` stores.
-/

namespace DeltaSwamp.Metadata

open List

/-- Why a value is not one for its key. -/
inductive Problem where
  | notBoolean
  | notPositive
  | notByteSize
  | notVersion
  | notIndexed
  | notInterval
  | notOneOf
  deriving DecidableEq

/-- `_BOOL_KEYS`. -/
def strictBooleanKeys : List String :=
  ["delta.appendOnly", "delta.enableChangeDataFeed", "delta.enableDeletionVectors",
    "delta.checkpoint.writeStatsAsStruct", "delta.checkpoint.writeStatsAsJson",
    "delta.enableExpiredLogCleanup", "delta.tuneFileSizesForRewrites",
    "delta.autoOptimize.optimizeWrite", "delta.autoOptimize.autoCompact",
    "delta.randomizeFilePrefixes", "delta.enableRowTracking", "delta.enableInCommitTimestamps",
    "delta.enableTypeWidening", "delta.enableIcebergCompatV2", "delta.enableIcebergCompatV3"]

/-- `_INTERVAL_KEYS`. -/
def intervalKeys : List String :=
  ["delta.logRetentionDuration", "delta.deletedFileRetentionDuration",
    "delta.setTransactionRetentionDuration"]

/-- `_INTERVAL_UNITS`. -/
def intervalUnits : List String :=
  ["nanosecond", "microsecond", "millisecond", "second", "minute", "hour", "day", "week"]

/-- `_ENUM_VALUES`. -/
def enumValues : List (String × List String) :=
  [(cmMode, ["none", "name", "id"]), ("delta.checkpointPolicy", ["classic", "v2"])]

/-- `_BYTE_UNITS`. -/
def byteUnits : List (String × Nat) :=
  [("", 1), ("b", 1), ("k", 2 ^ 10), ("kb", 2 ^ 10), ("m", 2 ^ 20), ("mb", 2 ^ 20),
    ("g", 2 ^ 30), ("gb", 2 ^ 30), ("t", 2 ^ 40), ("tb", 2 ^ 40), ("p", 2 ^ 50), ("pb", 2 ^ 50)]

/-- `isascii() and isdigit()`. -/
def isDigits (text : List Char) : Bool := text ≠ [] && text.all Char.isDigit

/-- A text without its sign. -/
def unsigned : List Char → List Char
  | '+' :: rest => rest
  | '-' :: rest => rest
  | text => text

/-- `str.removesuffix`, of one character. -/
def dropLast (c : Char) (text : List Char) : List Char :=
  if text.getLast? = some c then text.dropLast else text

section
variable (py : Python)

/-- `str.split()`, after the characters of a word. -/
def splitBlank (word : List Char) : List Char → List (List Char)
  | [] => if word = [] then [] else [word]
  | c :: rest =>
    if py.isSpace c then
      if word = [] then splitBlank [] rest else word :: splitBlank [] rest
    else splitBlank (word ++ [c]) rest

/-- `parse_byte_size`, of text. -/
def parseByteSize (value : String) : Except Refused (Option Int) :=
  let text := (py.lower (strip py value)).toList
  let number := text.takeWhile Char.isDigit
  let unit := strip py (String.ofList (text.dropWhile Char.isDigit))
  if number = [] then .ok none
  else
    match byteUnits.lookup unit with
    | none => .ok none
    | some factor =>
      match py.int (.str (String.ofList number)) with
      | none => .error .badNumber
      | some n => .ok (if 0 < n * factor then some (n * factor) else none)

/-- The interval check of `_value_problem`. -/
def isInterval (value : String) : Bool :=
  match splitBlank py [] value.toList with
  | [first, number, unit] =>
    first = "interval".toList && isDigits number &&
      String.ofList (dropLast 's' unit) ∈ intervalUnits
  | _ => false

/-- `_value_problem`, of text; an error where `int()` raises. -/
def valueProblem (key value : String) : Except Refused (Option Problem) :=
  if key ∈ strictBooleanKeys then
    .ok (if value = "true" ∨ value = "false" then none else some .notBoolean)
  else if key = "delta.checkpointInterval" then
    if isDigits value.toList then
      match py.int (.str value) with
      | none => .error .badNumber
      | some n => .ok (if 0 < n then none else some .notPositive)
    else .ok (some .notPositive)
  else if key = "delta.targetFileSize" then
    (parseByteSize py value).map fun
      | some _ => none
      | none => some .notByteSize
  else if key = "delta.minReaderVersion" ∨ key = "delta.minWriterVersion" then
    .ok (if isDigits value.toList then none else some .notVersion)
  else if key = numIndexed then
    if isDigits (unsigned value.toList) then
      match py.int (.str value) with
      | none => .error .badNumber
      | some n => .ok (if n < -1 then some .notIndexed else none)
    else .ok (some .notIndexed)
  else if key ∈ intervalKeys then
    .ok (if isInterval py value then none else some .notInterval)
  else
    match enumValues.lookup key with
    | some values => .ok (if value ∈ values then none else some .notOneOf)
    | none => .ok none

/-- A character in lower case. -/
def Python.lowerChar (c : Char) : List Char := (py.lower (String.singleton c)).toList

end

/-- The letters that `re.IGNORECASE` takes for an `s` or an `i`, and that `str.lower` makes none. -/
def oddLetters : List Char := ['ſ', 'ı', 'İ']

/-- The rules of `str.lower`, `str.isspace`, `re.IGNORECASE` and of digits that the values of
properties meet. -/
structure Python.Lawful (py : Python) : Prop where
  /-- Only a sigma's lower case depends on where it stands. -/
  lower_each : ∀ text : String, 'Σ' ∉ text.toList →
    (py.lower text).toList = text.toList.flatMap py.lowerChar
  lower_lower : ∀ text, py.lower (py.lower text) = py.lower text
  lowerChar_ascii : ∀ c : Char, c.toNat < 128 → py.lowerChar c = [c.toLower]
  lowerChar_digit : ∀ c, (py.digit c).isSome = true → py.lowerChar c = [c]
  lowerChar_space : ∀ c, py.isSpace c = true → py.lowerChar c = [c]
  lowerChar_odd : ∀ c, c = 'ſ' ∨ c = 'ı' → py.lowerChar c = [c]
  lowerChar_dotted : ∃ d ∈ py.lowerChar 'İ', ∀ a : Char, a.isLower = true →
    py.sameLetter a d = false
  isSpace_odd : ∀ c ∈ oddLetters, ∀ d ∈ py.lowerChar c, py.isSpace d = false
  isSpace_digit : ∀ c, (py.digit c).isSome = true → py.isSpace c = false
  isSpace_blank : py.isSpace ' ' = true
  isSpace_minus : py.isSpace '-' = false
  digit_ascii : ∀ c : Char, c.toNat < 128 →
    py.digit c = if c.isDigit then some (c.toNat - 48) else none
  sameLetter_self : ∀ a : Char, a.isLower = true → py.sameLetter a a = true
  sameLetter_lower : ∀ a c : Char, a.isLower = true → py.sameLetter a c = true → c ∉ oddLetters →
    py.lowerChar c = [a]
  sameLetter_odd : ∀ a c : Char, a.isLower = true → py.sameLetter a c = true → c ∈ oddLetters →
    a = 's' ∨ a = 'i'
  sigma : py.digit 'Σ' = none ∧ py.isSpace 'Σ' = false ∧
    ∀ a : Char, a.isLower = true → py.sameLetter a 'Σ' = false
  str_shown : ∀ n, py.str n = String.ofList (shown n)

variable {c : Char}

theorem toLower_small (h : c.toNat < 65 ∨ 90 < c.toNat) : c.toLower = c := by
  apply Char.toNat_inj.mp
  rw [toNat_toLower]
  split_ifs
  · omega
  · rfl

theorem isSpace_ascii (h : ascii.isSpace c = true) : c = ' ' ∨ c = '\t' ∨ c = '\r' ∨ c = '\n' := by
  simp only [ascii, Char.isWhitespace, Bool.or_eq_true, decide_eq_true_eq] at h
  tauto

theorem digit_ascii (h : (ascii.digit c).isSome = true) : c.isDigit = true := by
  by_contra hnot
  simp [ascii, hnot] at h

theorem sameLetter_ascii {a : Char} (ha : a.isLower = true) (h : ascii.sameLetter a c = true) :
    c.toLower = a := by
  have hrange := Text.isLower_iff.mp ha
  have hsame : a.toLower = c.toLower := of_decide_eq_true h
  rw [← hsame, toLower_small (by omega)]

theorem ascii_lowerChar (c : Char) : ascii.lowerChar c = [c.toLower] := by
  change (String.ofList ((String.singleton c).toList.map Char.toLower)).toList = _
  rw [String.toList_ofList, String.toList_singleton]
  rfl

theorem odd_toLower :
    ∀ c ∈ oddLetters, c.toLower = c ∧ 122 < c.toNat ∧ ascii.isSpace c = false := by
  decide

/-- Python's text functions on ASCII satisfy the laws. -/
theorem ascii_lawful : ascii.Lawful where
  lower_each text _ := by
    change (String.ofList (text.toList.map Char.toLower)).toList = _
    rw [String.toList_ofList, ← flatMap_pure_eq_map]
    exact flatMap_congr fun c _ => (ascii_lowerChar c).symm
  lower_lower text := by
    change String.ofList
      ((String.ofList (text.toList.map Char.toLower)).toList.map Char.toLower) = _
    rw [String.toList_ofList, map_map]
    exact congrArg String.ofList (map_congr_left fun c _ => toLower_toLower c)
  lowerChar_ascii c _ := ascii_lowerChar c
  lowerChar_digit c h := by
    have := Text.isDigit_iff.mp (digit_ascii h)
    rw [ascii_lowerChar, toLower_small (by omega)]
  lowerChar_space c h := by
    rw [ascii_lowerChar]
    obtain rfl | rfl | rfl | rfl := isSpace_ascii h
    · decide
    · decide
    · decide
    · decide
  lowerChar_odd c h := by
    have hodd : c ∈ oddLetters := by
      obtain rfl | rfl := h
      · decide
      · decide
    rw [ascii_lowerChar, (odd_toLower c hodd).1]
  lowerChar_dotted := by
    refine ⟨'İ', by decide, ?_⟩
    intro a ha
    rw [Bool.eq_false_iff]
    intro hsame
    have heq : Char.toLower 'İ' = a := sameLetter_ascii ha hsame
    subst heq
    exact absurd ha (by decide)
  isSpace_odd := by decide
  isSpace_digit c h := by
    rw [Bool.eq_false_iff]
    intro hspace
    have hdigit := digit_ascii h
    obtain rfl | rfl | rfl | rfl := isSpace_ascii hspace
    · exact absurd hdigit (by decide)
    · exact absurd hdigit (by decide)
    · exact absurd hdigit (by decide)
    · exact absurd hdigit (by decide)
  isSpace_blank := by decide
  isSpace_minus := by decide
  digit_ascii c _ := rfl
  sameLetter_self a _ := decide_eq_true rfl
  sameLetter_lower a c ha h _ := by
    rw [ascii_lowerChar, sameLetter_ascii ha h]
  sameLetter_odd a c ha h hodd := by
    have hrange := Text.isLower_iff.mp ha
    have heq := sameLetter_ascii ha h
    obtain ⟨hlower, hlarge, -⟩ := odd_toLower c hodd
    rw [hlower] at heq
    subst heq
    omega
  sigma := by
    refine ⟨by decide, by decide, ?_⟩
    intro a ha
    rw [Bool.eq_false_iff]
    intro hsame
    have heq : Char.toLower 'Σ' = a := sameLetter_ascii ha hsame
    subst heq
    exact absurd ha (by decide)
  str_shown _ := rfl

section
variable {py : Python} {text : String}

theorem dropWhile_of_head {p : Char → Bool} {l : List Char} (h : l.head?.all fun c => !p c) :
    l.dropWhile p = l := by
  cases l with
  | nil => rfl
  | cons c l =>
    have hc : p c = false := by simpa using h
    rw [dropWhile_cons_of_neg (by simp [hc])]

theorem head_dropWhile (p : Char → Bool) (l : List Char) :
    (l.dropWhile p).head?.all fun c => !p c := by
  induction l with
  | nil => rfl
  | cons c l ih =>
    cases hc : p c with
    | true => rwa [dropWhile_cons_of_pos hc]
    | false =>
      rw [dropWhile_cons_of_neg (by simp [hc])]
      simpa using hc

theorem strip_of_ends (hhead : text.toList.head?.all fun c => !py.isSpace c)
    (hlast : text.toList.getLast?.all fun c => !py.isSpace c) : strip py text = text := by
  rw [strip, dropWhile_of_head hhead, dropWhile_of_head (by rwa [List.head?_reverse]),
    reverse_reverse, String.ofList_toList]

theorem strip_strip (py : Python) (text : String) : strip py (strip py text) = strip py text := by
  have hlist : (strip py text).toList =
      ((text.toList.dropWhile py.isSpace).reverse.dropWhile py.isSpace).reverse :=
    String.toList_ofList
  apply strip_of_ends
  · rw [hlist, List.head?_reverse]
    have hhead := head_dropWhile py.isSpace text.toList
    generalize text.toList.dropWhile py.isSpace = l at hhead ⊢
    have hsuffix := dropWhile_suffix py.isSpace (l := l.reverse)
    cases hlast : (l.reverse.dropWhile py.isSpace).getLast? with
    | none => rfl
    | some c =>
      have hne : l.reverse.dropWhile py.isSpace ≠ [] := by
        intro hnil
        simp [hnil] at hlast
      obtain ⟨front, hfront⟩ := hsuffix
      have hc : l.head? = some c := by
        rw [← List.getLast?_reverse, ← hfront, List.getLast?_append_of_ne_nil _ hne, hlast]
      simpa [hc] using hhead
  · rw [hlist, List.getLast?_reverse]
    exact head_dropWhile _ _

theorem isSpace_word (hpy : py.Lawful) {c : Char} (h : c.isAlphanum = true) :
    py.isSpace c = false := by
  simp only [Char.isAlphanum, Bool.or_eq_true] at h
  obtain halpha | hdigit := h
  · exact py.isSpace_alpha c halpha
  · have hrange := Text.isDigit_iff.mp hdigit
    apply hpy.isSpace_digit
    rw [hpy.digit_ascii c (by omega), if_pos hdigit]
    rfl

theorem strip_word (hpy : py.Lawful) (hhead : text.toList.head?.all Char.isAlphanum)
    (hlast : text.toList.getLast?.all Char.isAlphanum) : strip py text = text := by
  apply strip_of_ends
  · rw [Option.all_eq_true] at hhead ⊢
    intro c hc
    simp [isSpace_word hpy (hhead c hc)]
  · rw [Option.all_eq_true] at hlast ⊢
    intro c hc
    simp [isSpace_word hpy (hlast c hc)]

theorem lower_of_ascii (hpy : py.Lawful) (h : ∀ c ∈ text.toList, c.toNat < 128) :
    py.lower text = String.ofList (text.toList.map Char.toLower) := by
  have hsigma : 'Σ' ∉ text.toList := fun hmem => absurd (h 'Σ' hmem) (by decide)
  apply String.toList_inj.mp
  rw [hpy.lower_each text hsigma, String.toList_ofList, ← flatMap_pure_eq_map]
  apply flatMap_congr
  intro c hc
  exact hpy.lowerChar_ascii c (h c hc)

end

end DeltaSwamp.Metadata
