import DeltaSwamp.Metadata.Edited
import DeltaSwamp.Metadata.Stamped
import DeltaSwamp.Metadata.Strict

/-!
# Values that every reader parses

When the value `set_properties` stores for a known key is one that
`_value_problem` accepts and that is stored again as it is.
-/

namespace DeltaSwamp.Metadata

open List

/-- The known keys that take a value. -/
def settableKeys : List String := knownKeys ++ [rowTrackingKey]

/-- The values of the other keys are words and numbers in one spelling. -/
def wordKeys : List String :=
  ["delta.isolationLevel", "delta.parquet.compression.codec", "delta.checkpointPolicy"]

theorem settableKeys_classes : ∀ key ∈ settableKeys, key ∈ booleanKeys ∨
    (key ∉ booleanKeys ∧ (integerKeys.lookup key).isSome = true) ∨
    (key ∉ booleanKeys ∧ integerKeys.lookup key = none ∧ key ∈ durationKeys) ∨
    key = "delta.targetFileSize" ∨ key ∈ wordKeys ∨ key = cmMode ∨ key = statsColumns := by
  decide +kernel

section
variable {py : Python} {key value v : String} {raw : RawValue} {schema : DataType}

theorem normaliseValue_given (hraw : raw ≠ .none) :
    normaliseValue py key raw schema = normaliseValue py key (.text (raw.given py)) schema := by
  cases raw with
  | none => exact absurd rfl hraw
  | bool b =>
    unfold normaliseValue
    simp only [reduceCtorEq, if_false, RawValue.given, RawValue.str]
    rfl
  | text s => rfl

/-- A stored value that passes the strict check and is stored again as it is. -/
def Reread (py : Python) (schema : DataType) (key v : String) : Prop :=
  valueProblem py key v = .ok none ∧ normaliseValue py key (.text v) schema = .ok v

theorem booleanKeys_strict : ∀ key ∈ booleanKeys, key ∈ strictBooleanKeys ∨
    (key ∉ strictBooleanKeys ∧ key ≠ "delta.checkpointInterval" ∧ key ≠ "delta.targetFileSize" ∧
      ¬ (key = "delta.minReaderVersion" ∨ key = "delta.minWriterVersion") ∧ key ≠ numIndexed ∧
      key ∉ intervalKeys ∧ enumValues.lookup key = none) := by
  decide

theorem normaliseValue_flag (hkey : key ∈ booleanKeys) (hstrip : strip py v = v)
    (hlower : py.lower v = v) (hv : v = "true" ∨ v = "false") :
    normaliseValue py key (.text v) schema = .ok v := by
  unfold normaliseValue
  simp only [RawValue.str, if_pos hkey, hstrip, hlower, if_pos hv]
  simp

theorem reread_boolean (hpy : py.Lawful) (hkey : key ∈ booleanKeys)
    (hv : v = "true" ∨ v = "false") :
    Reread py schema key v := by
  constructor
  · unfold valueProblem
    obtain hmem | ⟨hmem, hpositive, hsize, hversion, hindexed, hinterval, henum⟩ :=
      booleanKeys_strict key hkey
    · rw [if_pos hmem, if_pos hv]
    · rw [if_neg hmem, if_neg hpositive, if_neg hsize, if_neg hversion, if_neg hindexed,
        if_neg hinterval, henum]
  · obtain rfl | rfl := hv
    · exact normaliseValue_flag hkey (strip_word hpy (by decide) (by decide))
        (py.lower_ascii _ (by decide)) (.inl rfl)
    · exact normaliseValue_flag hkey (strip_word hpy (by decide) (by decide))
        (py.lower_ascii _ (by decide)) (.inr rfl)

theorem shown_all (n : Int) : ∀ c ∈ shown n, c.isDigit = true ∨ c = '-' := by
  intro c hc
  cases n with
  | ofNat n => exact .inl (Nat.isDigit_of_mem_toDigits (by decide) (by decide) hc)
  | negSucc n =>
    obtain rfl | hc := mem_cons.mp hc
    · exact .inr rfl
    · exact .inl (Nat.isDigit_of_mem_toDigits (by decide) (by decide) hc)

theorem isDigits_toDigits (n : Nat) : isDigits (Nat.toDigits 10 n) = true := by
  simp only [isDigits, Bool.and_eq_true, decide_eq_true_eq, all_eq_true]
  apply And.intro Nat.toDigits_ne_nil
  intro c hc
  exact Nat.isDigit_of_mem_toDigits (by decide) (by decide) hc

theorem shown_natCast (n : Nat) : shown (n : Int) = Nat.toDigits 10 n := rfl

theorem isDigits_unsigned (n : Int) : isDigits (unsigned (shown n)) = true := by
  cases n with
  | ofNat n =>
    have hplain : unsigned (Nat.toDigits 10 n) = Nat.toDigits 10 n := by
      unfold unsigned
      split
      · rename_i heq
        have hdigit := Nat.isDigit_of_mem_toDigits (b := 10) (n := n) (c := '+') (by decide)
          (by decide) (by simp [heq])
        exact absurd hdigit (by decide)
      · rename_i heq
        have hdigit := Nat.isDigit_of_mem_toDigits (b := 10) (n := n) (c := '-') (by decide)
          (by decide) (by simp [heq])
        exact absurd hdigit (by decide)
      · rfl
    rw [shown, hplain]
    exact isDigits_toDigits n
  | negSucc n => exact isDigits_toDigits (n + 1)

theorem strip_str (hpy : py.Lawful) (n : Int) : strip py (py.str n) = py.str n := by
  have hplain : ∀ c ∈ shown n, (!py.isSpace c) = true := by
    intro c hc
    obtain hdigit | rfl := shown_all n c hc
    · simp [isSpace_word hpy (c := c) (by simp [Char.isAlphanum, hdigit])]
    · simp [hpy.isSpace_minus]
  rw [hpy.str_shown]
  apply strip_of_ends
  · rw [String.toList_ofList, Option.all_eq_true]
    exact fun c hc => hplain c (mem_of_mem_head? hc)
  · rw [String.toList_ofList, Option.all_eq_true]
    exact fun c hc => hplain c (mem_of_mem_getLast? hc)

variable {least : Int}

theorem normaliseValue_integer (hkey : key ∉ booleanKeys)
    (hleast : integerKeys.lookup key = some least) :
    normaliseValue py key (.text value) schema = .ok v ↔
      ∃ n, py.int (.str (strip py value)) = some n ∧ least ≤ n ∧ v = py.str n := by
  unfold normaliseValue
  simp only [RawValue.str, if_neg hkey, hleast]
  cases hint : py.int (.str (strip py value)) with
  | none => simp
  | some n =>
    simp only [reduceCtorEq, if_false, Option.some.injEq, exists_eq_left']
    split_ifs with hlt
    · simp only [false_iff, not_and]
      omega
    · simp only [Except.ok.injEq]
      constructor
      · rintro rfl
        exact ⟨by omega, rfl⟩
      · rintro ⟨-, rfl⟩
        rfl

theorem integerKeys_cases (h : integerKeys.lookup key = some least) :
    (key = "delta.checkpointInterval" ∧ least = 1) ∨ (key = numIndexed ∧ least = -1) ∨
      (key = "delta.randomPrefixLength" ∧ least = 1) := by
  simp only [integerKeys, lookup_cons, lookup_nil] at h
  split at h
  · simp_all
  · split at h
    · simp_all [numIndexed]
    · split at h
      · simp_all
      · cases h

theorem reread_integer (hpy : py.Lawful) (hkey : key ∉ booleanKeys)
    (hleast : integerKeys.lookup key = some least)
    (h : normaliseValue py key (.text value) schema = .ok v) : Reread py schema key v := by
  obtain ⟨n, -, hn, rfl⟩ := (normaliseValue_integer hkey hleast).mp h
  constructor
  · have htext : (py.str n).toList = shown n := by rw [hpy.str_shown, String.toList_ofList]
    unfold valueProblem
    obtain ⟨rfl, rfl⟩ | ⟨rfl, rfl⟩ | ⟨rfl, -⟩ := integerKeys_cases hleast
    · obtain ⟨m, rfl⟩ := Int.eq_ofNat_of_zero_le (by omega : 0 ≤ n)
      rw [if_neg (by decide), if_pos rfl, htext, shown_natCast, if_pos (isDigits_toDigits m),
        py.int_str]
      simp only
      rw [if_pos (by omega)]
    · rw [if_neg (by decide), if_neg (by decide), if_neg (by decide), if_neg (by decide),
        if_pos rfl, htext, if_pos (isDigits_unsigned n), py.int_str]
      simp only
      rw [if_neg (by omega)]
    · rfl
  · rw [normaliseValue_integer hkey hleast]
    exact ⟨n, by rw [strip_str hpy, py.int_str], hn, rfl⟩

/-! ## Intervals -/

/-- The units, one or many. -/
def unitNames : List String := intervalUnits ++ intervalUnits.map (· ++ "s")

theorem unitNames_plain : ∀ name ∈ unitNames, name.toList ≠ [] ∧
    (∀ c ∈ name.toList, c.isLower = true) ∧
      String.ofList (dropLast 's' name.toList) ∈ intervalUnits := by
  decide

variable {name text : List Char}

theorem Spells.split {more : List Char} (h : Spells py (name ++ more) text) :
    ∃ first last, text = first ++ last ∧ Spells py name first ∧ Spells py more last := by
  induction name generalizing text with
  | nil => exact ⟨[], text, rfl, .nil, h⟩
  | cons a name ih =>
    cases h with
    | cons hsame hrest =>
      obtain ⟨first, last, rfl, hfirst, hlast⟩ := ih hrest
      exact ⟨_ :: first, last, rfl, .cons hsame hfirst, hlast⟩

variable {unit : List Char}

theorem intervalUnit_iff :
    intervalUnit py unit = true ↔ ∃ name ∈ unitNames, Spells py name.toList unit := by
  have hmany : ∀ name : String, (name ++ "s").toList = name.toList ++ ['s'] := by simp
  change (intervalUnits.any _) = true ↔ _
  rw [any_eq_true]
  constructor
  · rintro ⟨name, hname, h⟩
    split at h
    · rename_i hdrop
      obtain ⟨spelled, rfl, hspells⟩ := dropName_iff.mp hdrop
      exact ⟨name, mem_append_left _ hname, by simpa using hspells⟩
    · rename_i c hdrop
      obtain ⟨spelled, rfl, hspells⟩ := dropName_iff.mp hdrop
      refine ⟨name ++ "s", mem_append_right _ (mem_map_of_mem hname), ?_⟩
      rw [hmany]
      exact rel_append hspells (.cons h .nil)
    · cases h
  · rintro ⟨name, hname, h⟩
    obtain hname | hname := mem_append.mp hname
    · refine ⟨name, hname, ?_⟩
      rw [dropName_iff.mpr ⟨unit, (append_nil unit).symm, h⟩]
    · obtain ⟨one, hone, rfl⟩ := mem_map.mp hname
      rw [hmany] at h
      obtain ⟨spelled, last, rfl, hspells, hlast⟩ := Spells.split h
      cases hlast with
      | cons hs hnil =>
        cases hnil
        refine ⟨one, hone, ?_⟩
        rw [dropName_iff.mpr ⟨spelled, rfl, hspells⟩]
        exact hs

theorem Spells.letters (h : Spells py name unit) :
    ∀ c ∈ unit, ∃ a ∈ name, py.sameLetter a c = true := by
  intro c hc
  induction h with
  | nil => cases hc
  | cons hsame _ ih =>
    obtain rfl | hc := mem_cons.mp hc
    · exact ⟨_, mem_cons_self, hsame⟩
    · obtain ⟨a, ha, hsame⟩ := ih hc
      exact ⟨a, mem_cons_of_mem _ ha, hsame⟩

theorem Spells.lower (hpy : py.Lawful) (h : Spells py name unit)
    (hname : ∀ a ∈ name, a.isLower = true) :
    (py.lower (String.ofList unit)).toList = unit.flatMap py.lowerChar := by
  rw [hpy.lower_each _ (by
    rw [String.toList_ofList]
    intro hsigma
    obtain ⟨a, ha, hsame⟩ := h.letters _ hsigma
    rw [hpy.sigma.2.2 a (hname a ha)] at hsame
    cases hsame), String.toList_ofList]

theorem Spells.plain (hpy : py.Lawful) (h : Spells py name unit)
    (hname : ∀ a ∈ name, a.isLower = true) (hplain : ∀ c ∈ unit, c ∉ oddLetters) :
    unit.flatMap py.lowerChar = name := by
  induction h with
  | nil => rfl
  | cons hsame _ ih =>
    rw [flatMap_cons,
      hpy.sameLetter_lower _ _ (hname _ mem_cons_self) hsame (hplain _ mem_cons_self),
      ih (fun a ha => hname a (mem_cons_of_mem _ ha))
        (fun c hc => hplain c (mem_cons_of_mem _ hc))]
    rfl

variable {c : Char}

theorem odd_cases (h : c ∈ oddLetters) : (c = 'ſ' ∨ c = 'ı') ∨ c = 'İ' := by
  simp only [oddLetters, mem_cons, not_mem_nil, or_false] at h
  tauto

theorem Spells.undotted (hpy : py.Lawful) (h : Spells py name unit)
    (hname : ∀ a ∈ name, a.isLower = true) (hdot : 'İ' ∉ unit) :
    Spells py name (unit.flatMap py.lowerChar) := by
  induction h with
  | nil => exact .nil
  | @cons a c name unit hsame _ ih =>
    have hlower := hname a mem_cons_self
    have hrest := ih (fun a ha => hname a (mem_cons_of_mem _ ha))
      (fun hmem => hdot (mem_cons_of_mem _ hmem))
    rw [flatMap_cons]
    by_cases hodd : c ∈ oddLetters
    · obtain hodd | rfl := odd_cases hodd
      · rw [hpy.lowerChar_odd c hodd]
        exact .cons hsame hrest
      · exact absurd mem_cons_self hdot
    · rw [hpy.sameLetter_lower a c hlower hsame hodd]
      exact .cons (hpy.sameLetter_self a hlower) hrest

theorem Spells.dotted (hpy : py.Lawful) (hdot : 'İ' ∈ unit) :
    intervalUnit py (unit.flatMap py.lowerChar) = false := by
  rw [Bool.eq_false_iff]
  intro h
  obtain ⟨name, hname, hspells⟩ := intervalUnit_iff.mp h
  obtain ⟨d, hd, hnone⟩ := hpy.lowerChar_dotted
  obtain ⟨a, ha, hsame⟩ := hspells.letters d (mem_flatMap.mpr ⟨'İ', hdot, hd⟩)
  rw [hnone a ((unitNames_plain name hname).2.1 a ha)] at hsame
  cases hsame

theorem Spells.solid (hpy : py.Lawful) (h : Spells py name unit)
    (hname : ∀ a ∈ name, a.isLower = true) (hne : name ≠ []) :
    unit.flatMap py.lowerChar ≠ [] ∧ ∀ d ∈ unit.flatMap py.lowerChar, py.isSpace d = false := by
  have hchar : ∀ c ∈ unit, py.lowerChar c ≠ [] ∧ ∀ d ∈ py.lowerChar c, py.isSpace d = false := by
    intro c hc
    obtain ⟨a, ha, hsame⟩ := h.letters c hc
    by_cases hodd : c ∈ oddLetters
    · apply And.intro _ (hpy.isSpace_odd c hodd)
      obtain hodd | rfl := odd_cases hodd
      · simp [hpy.lowerChar_odd c hodd]
      · obtain ⟨d, hd, -⟩ := hpy.lowerChar_dotted
        exact ne_nil_of_mem hd
    · rw [hpy.sameLetter_lower a c (hname a ha) hsame hodd]
      apply And.intro (by simp)
      intro d hd
      rw [mem_singleton] at hd
      subst hd
      exact py.isSpace_alpha d (Text.isAlpha_of_isLower (hname d ha))
  constructor
  · cases h with
    | nil => exact absurd rfl hne
    | cons hsame _ =>
      intro hnil
      exact (hchar _ mem_cons_self).1 (append_eq_nil_iff.mp hnil).1
  · intro d hd
    obtain ⟨c, hc, hd⟩ := mem_flatMap.mp hd
    exact (hchar c hc).2 d hd

theorem splitBlank_last {word w : List Char} (hw : ∀ c ∈ w, py.isSpace c = false)
    (hne : word ++ w ≠ []) : splitBlank py word w = [word ++ w] := by
  induction w generalizing word with
  | nil =>
    rw [append_nil] at hne ⊢
    rw [splitBlank, if_neg hne]
  | cons c w ih =>
    rw [splitBlank, if_neg (by simp [hw c mem_cons_self]),
      ih (fun d hd => hw d (mem_cons_of_mem _ hd)) (by simp), append_assoc]
    rfl

variable {rest : List Char}

theorem splitBlank_word {word w : List Char} {blank : Char} (hblank : py.isSpace blank = true)
    (hw : ∀ c ∈ w, py.isSpace c = false) (hne : word ++ w ≠ []) :
    splitBlank py word (w ++ blank :: rest) = (word ++ w) :: splitBlank py [] rest := by
  induction w generalizing word with
  | nil =>
    rw [append_nil] at hne ⊢
    rw [nil_append, splitBlank, if_pos hblank, if_neg hne]
  | cons c w ih =>
    rw [cons_append, splitBlank, if_neg (by simp [hw c mem_cons_self]),
      ih (fun d hd => hw d (mem_cons_of_mem _ hd)) (by simp), append_assoc]
    rfl

def intervalWord : List Char := ['i', 'n', 't', 'e', 'r', 'v', 'a', 'l']

theorem toList_word : "interval".toList = intervalWord := by decide

theorem intervalWord_plain : ∀ c ∈ intervalWord, c.isLower = true := by decide

/-- What is stored for an interval. -/
def intervalText (number : Nat) (unit : List Char) : List Char :=
  intervalWord ++ ' ' :: (Nat.toDigits 10 number ++ ' ' :: unit)

theorem toList_interval (number : Nat) (unit : String) :
    (s!"interval {number} {unit}").toList = intervalText number unit.toList := by
  have htext : s!"interval {number} {unit}" = "interval " ++ toString number ++ " " ++ unit := rfl
  have hword : "interval ".toList = intervalWord ++ [' '] := by decide
  have hblank : " ".toList = [' '] := by decide
  have hnumber : (toString number).toList = Nat.toDigits 10 number := by
    rw [Nat.toString_eq_repr, Nat.repr, String.toList_ofList]
  rw [htext, String.toList_append, String.toList_append, String.toList_append, hword, hnumber,
    hblank, intervalText, append_assoc, append_assoc, append_assoc]
  simp only [cons_append, nil_append]

theorem isSpace_toDigits (hpy : py.Lawful) (n : Nat) :
    ∀ c ∈ Nat.toDigits 10 n, py.isSpace c = false := by
  intro c hc
  have hdigit := Nat.isDigit_of_mem_toDigits (by decide) (by decide) hc
  exact isSpace_word hpy (by simp [Char.isAlphanum, hdigit])

theorem digit_blank (hpy : py.Lawful) {blank : Char} (hblank : py.isSpace blank = true) :
    py.digit blank = none := by
  cases hdigit : py.digit blank with
  | none => rfl
  | some d =>
    have hspace := hpy.isSpace_digit blank (by simp [hdigit])
    rw [hblank] at hspace
    cases hspace

variable {digits : List Char}

theorem readDigits_ascii (hpy : py.Lawful) (hdigits : ∀ c ∈ digits, c.isDigit = true)
    (hrest : ∀ c ∈ rest.head?, py.digit c = none) (start : Nat) :
    readDigits py start (digits ++ rest) = (Nat.ofDigitChars 10 digits start, rest) := by
  induction digits generalizing start with
  | nil =>
    cases rest with
    | nil => rfl
    | cons c rest =>
      rw [nil_append, readDigits, hrest c rfl]
      rfl
  | cons c digits ih =>
    have hc := hdigits c mem_cons_self
    have hrange := Text.isDigit_iff.mp hc
    have hdigit := hpy.digit_ascii c (by omega)
    rw [if_pos hc] at hdigit
    rw [cons_append, readDigits, hdigit]
    dsimp only
    rw [ih fun d hd => hdigits d (mem_cons_of_mem _ hd), Nat.ofDigitChars_cons]
    rfl

theorem readNumber_toDigits (hpy : py.Lawful) (n : Nat) {rest : List Char}
    (hrest : ∀ c ∈ rest.head?, py.digit c = none) :
    readNumber py (Nat.toDigits 10 n ++ rest) = some (n, rest) := by
  have hdigits : ∀ c ∈ Nat.toDigits 10 n, c.isDigit = true :=
    fun c hc => Nat.isDigit_of_mem_toDigits (by decide) (by decide) hc
  have hvalue : Nat.ofDigitChars 10 (Nat.toDigits 10 n) 0 = n :=
    Nat.ofDigitChars_toDigits (by decide) (by decide)
  cases htext : Nat.toDigits 10 n with
  | nil => exact absurd htext Nat.toDigits_ne_nil
  | cons c digits =>
    rw [htext] at hdigits hvalue
    have hall := readDigits_ascii hpy hdigits hrest 0
    have hc := hdigits c mem_cons_self
    have hrange := Text.isDigit_iff.mp hc
    have hdigit := hpy.digit_ascii c (by omega)
    rw [if_pos hc] at hdigit
    rw [hvalue, cons_append, readDigits, hdigit] at hall
    rw [cons_append, readNumber, hdigit, Option.map_some]
    simpa using hall

theorem head_toDigits (n : Nat) (rest : List Char) :
    ∃ c more, Nat.toDigits 10 n ++ rest = c :: more ∧ c ∈ Nat.toDigits 10 n := by
  cases htext : Nat.toDigits 10 n with
  | nil => exact absurd htext Nat.toDigits_ne_nil
  | cons c digits => exact ⟨c, digits ++ rest, rfl, mem_cons_self⟩

theorem intervalOf_stored (hpy : py.Lawful) (number : Nat)
    (hunit : ∀ c ∈ unit, py.isSpace c = false) :
    intervalOf py (intervalText number unit) =
      if intervalUnit py unit then some (number, String.ofList unit) else none := by
  have hself : Spells py intervalWord intervalWord := by
    apply forall₂_same.mpr
    intro c hc
    exact hpy.sameLetter_self c (intervalWord_plain c hc)
  have hdrop : dropName py intervalWord (intervalText number unit) =
      some (' ' :: (Nat.toDigits 10 number ++ ' ' :: unit)) := dropName_iff.mpr ⟨_, rfl, hself⟩
  have hbody : (Nat.toDigits 10 number ++ ' ' :: unit).dropWhile py.isSpace =
      Nat.toDigits 10 number ++ ' ' :: unit := by
    obtain ⟨c, more, htext, hc⟩ := head_toDigits number (' ' :: unit)
    apply dropWhile_of_head
    simp [htext, isSpace_toDigits hpy number c hc]
  have hrest : (' ' :: unit).dropWhile py.isSpace = unit := by
    rw [dropWhile_cons_of_pos hpy.isSpace_blank]
    apply dropWhile_of_head
    rw [Option.all_eq_true]
    intro c hc
    simp [hunit c (mem_of_mem_head? hc)]
  have hnumber := @readNumber_toDigits _ hpy number (' ' :: unit) (by
    intro c hc
    cases hc
    exact digit_blank hpy hpy.isSpace_blank)
  unfold intervalOf
  simp only [toList_word, hdrop, hpy.isSpace_blank, if_true, hbody, hnumber, Option.bind_eq_bind,
    Option.bind_some,
    hrest]

theorem strip_interval (number : Nat) (hne : unit ≠ []) (hunit : ∀ c ∈ unit, py.isSpace c = false) :
    strip py (String.ofList (intervalText number unit)) =
      String.ofList (intervalText number unit) := by
  apply strip_of_ends
  · have hi : py.isSpace 'i' = false := py.isSpace_alpha 'i' (by decide)
    simp [intervalText, intervalWord, hi]
  · have hlast : (intervalText number unit).getLast? = unit.getLast? := by
      have htext : intervalText number unit =
          (intervalWord ++ ' ' :: (Nat.toDigits 10 number ++ [' '])) ++ unit := by
        simp [intervalText]
      rw [htext, List.getLast?_append_of_ne_nil _ hne]
    rw [String.toList_ofList, hlast, Option.all_eq_true]
    intro c hc
    simp [hunit c (mem_of_mem_getLast? hc)]

theorem isInterval_stored (hpy : py.Lawful) (number : Nat) (hne : unit ≠ [])
    (hunit : ∀ c ∈ unit, py.isSpace c = false) :
    isInterval py (String.ofList (intervalText number unit)) =
      decide (String.ofList (dropLast 's' unit) ∈ intervalUnits) := by
  have hword : ∀ c ∈ intervalWord, py.isSpace c = false := by
    intro c hc
    exact py.isSpace_alpha c (Text.isAlpha_of_isLower (intervalWord_plain c hc))
  have hsplit : splitBlank py [] (intervalText number unit) =
      [intervalWord, Nat.toDigits 10 number, unit] := by
    rw [intervalText, splitBlank_word hpy.isSpace_blank hword (by decide),
      splitBlank_word hpy.isSpace_blank (isSpace_toDigits hpy number)
        (by simp), splitBlank_last hunit (by simpa using hne)]
    rfl
  rw [isInterval, String.toList_ofList, hsplit]
  simp [toList_word, isDigits_toDigits]

theorem odd_lower (hpy : py.Lawful) (h : c ∈ oddLetters) :
    ∃ d ∈ py.lowerChar c, d.isLower = false := by
  obtain hodd | rfl := odd_cases h
  · apply Exists.intro c
    rw [hpy.lowerChar_odd c hodd]
    apply And.intro (mem_singleton_self c)
    obtain rfl | rfl := hodd
    · decide
    · decide
  · obtain ⟨d, hd, hnone⟩ := hpy.lowerChar_dotted
    apply Exists.intro d
    apply And.intro hd
    rw [Bool.eq_false_iff]
    intro hlower
    have hself := hpy.sameLetter_self d hlower
    rw [hnone d hlower] at hself
    cases hself

theorem intervalUnits_lower : ∀ name ∈ intervalUnits, ∀ c ∈ name.toList, c.isLower = true := by
  decide

theorem dropLast_notUnit {d : Char} (hd : d ∈ text) (hlower : d.isLower = false) :
    String.ofList (dropLast 's' text) ∉ intervalUnits := by
  intro hmem
  have hall := intervalUnits_lower _ hmem
  rw [String.toList_ofList] at hall
  have hkept : d ∈ dropLast 's' text := by
    unfold dropLast
    split_ifs with hlast
    · have hne : text ≠ [] := ne_nil_of_mem hd
      rw [List.getLast?_eq_some_getLast hne, Option.some.injEq] at hlast
      rw [← dropLast_append_getLast hne, mem_append, mem_singleton, hlast] at hd
      obtain hd | rfl := hd
      · exact hd
      · exact absurd hlower (by decide)
    · exact hd
  rw [hall d hkept] at hlower
  cases hlower

theorem durationKeys_plain : ∀ key ∈ durationKeys, key ∉ booleanKeys ∧
    integerKeys.lookup key = none ∧ key ∉ strictBooleanKeys ∧ key ≠ "delta.checkpointInterval" ∧
      key ≠ "delta.targetFileSize" ∧
      ¬ (key = "delta.minReaderVersion" ∨ key = "delta.minWriterVersion") ∧ key ≠ numIndexed ∧
      enumValues.lookup key = none := by
  decide

theorem normaliseValue_duration (hkey : key ∈ durationKeys) :
    normaliseValue py key (.text value) schema =
      match intervalOf py (strip py value).toList with
      | some (number, unit) =>
        .ok (String.ofList (intervalText number (py.lower unit).toList))
      | none => .error (.badProperty key) := by
  obtain ⟨hboolean, hinteger, -⟩ := durationKeys_plain key hkey
  unfold normaliseValue
  simp only [RawValue.str, reduceCtorEq, if_false, if_neg hboolean, hinteger, if_pos hkey]
  cases intervalOf py (strip py value).toList with
  | none => rfl
  | some r =>
    obtain ⟨number, unit⟩ := r
    simp only [← toList_interval, String.ofList_toList]

/-- A stored interval is read strictly unless its unit has an odd letter, and stored again as it
is unless that is the dotted capital. -/
theorem reread_duration (hpy : py.Lawful) (hkey : key ∈ durationKeys) {number : Nat}
    {unit : String} (hunit : intervalUnit py unit.toList = true) :
    Reread py schema key (String.ofList (intervalText number (py.lower unit).toList)) ↔
      (key ∈ intervalKeys → ∀ c ∈ unit.toList, c ∉ oddLetters) ∧ 'İ' ∉ unit.toList := by
  obtain ⟨-, -, hstrict, hpositive, hsize, hversion, hindexed, henum⟩ := durationKeys_plain key hkey
  obtain ⟨name, hname, hspells⟩ := intervalUnit_iff.mp hunit
  obtain ⟨hne, hletters, hunits⟩ := unitNames_plain name hname
  obtain ⟨hsolid, hspace⟩ := hspells.solid hpy hletters hne
  have hlower : (py.lower unit).toList = unit.toList.flatMap py.lowerChar := by
    rw [← hspells.lower hpy hletters, String.ofList_toList]
  have hproblem : valueProblem py key (String.ofList (intervalText number (py.lower unit).toList)) =
      .ok none ↔ (key ∈ intervalKeys → ∀ c ∈ unit.toList, c ∉ oddLetters) := by
    unfold valueProblem
    rw [if_neg hstrict, if_neg hpositive, if_neg hsize, if_neg hversion, if_neg hindexed, henum,
      hlower, isInterval_stored hpy number hsolid hspace]
    by_cases hinterval : key ∈ intervalKeys
    · rw [if_pos hinterval]
      by_cases hodd : ∀ c ∈ unit.toList, c ∉ oddLetters
      · rw [hspells.plain hpy hletters hodd, if_pos (decide_eq_true hunits)]
        simpa [hinterval] using hodd
      · obtain ⟨c, hc, hnot⟩ := by simpa only [not_forall, not_not] using hodd
        obtain ⟨d, hd, hfalse⟩ := odd_lower hpy hnot
        have hmem := dropLast_notUnit (mem_flatMap.mpr ⟨c, hc, hd⟩) hfalse
        rw [if_neg (by simpa using hmem)]
        simp only [Except.ok.injEq, reduceCtorEq, false_iff]
        exact fun h => hodd (h hinterval)
    · simp [hinterval]
  have hagain : normaliseValue py key
      (.text (String.ofList (intervalText number (py.lower unit).toList))) schema =
        .ok (String.ofList (intervalText number (py.lower unit).toList)) ↔ 'İ' ∉ unit.toList := by
    rw [normaliseValue_duration hkey, hlower, strip_interval number hsolid hspace,
      String.toList_ofList, intervalOf_stored hpy number hspace]
    by_cases hdot : 'İ' ∈ unit.toList
    · rw [if_neg (by rw [Spells.dotted hpy hdot]; decide)]
      simpa using hdot
    · have hspells' := hspells.undotted hpy hletters hdot
      rw [if_pos (intervalUnit_iff.mpr ⟨name, hname, hspells'⟩)]
      have hlower' : (py.lower (String.ofList (unit.toList.flatMap py.lowerChar))).toList =
          unit.toList.flatMap py.lowerChar := by
        rw [← hlower, String.ofList_toList, hpy.lower_lower]
      simpa [hlower'] using hdot
  rw [Reread, hproblem, hagain]

/-! ## Sizes -/

/-- The units `_FILE_SIZE` knows, and none. -/
def fileUnits : List String := ["", "b", "k", "kb", "m", "mb", "g", "gb"]

theorem fileUnits_plain : ∀ name ∈ fileUnits,
    (∀ c ∈ name.toList, c.isLower = true ∧ c ≠ 's' ∧ c ≠ 'i') ∧
      (byteUnits.lookup name).any (0 < ·) = true := by
  decide

theorem byteUnits_ascii : ∀ e ∈ byteUnits, ∀ c ∈ e.1.toList, c.toNat < 128 := by decide

/-- Whether a character is one of `\d`. -/
def anyDigit (py : Python) (c : Char) : Bool := (py.digit c).isSome

/-- The digits a text starts with are ASCII ones, and `int()` reads a positive number there. -/
def PlainSize (py : Python) (text : String) : Prop :=
  (∀ c ∈ text.toList.takeWhile (anyDigit py), c.isDigit = true) ∧
    ∃ n, py.int (.str (String.ofList (text.toList.takeWhile (anyDigit py)))) = some n ∧ 0 < n

theorem readDigits_rest (start : Nat) (text : List Char) :
    (readDigits py start text).2 = text.dropWhile (anyDigit py) := by
  induction text generalizing start with
  | nil => rfl
  | cons c text ih =>
    rw [readDigits]
    cases hdigit : py.digit c with
    | none => rw [dropWhile_cons_of_neg (by simp [anyDigit, hdigit])]
    | some d => rw [dropWhile_cons_of_pos (by simp [anyDigit, hdigit]), ← ih]

theorem isFileSize_parts (h : isFileSize py text = true) :
    ∃ digits blanks unit name, text = digits ++ (blanks ++ unit) ∧ digits ≠ [] ∧
      text.takeWhile (anyDigit py) = digits ∧ (∀ c ∈ digits, anyDigit py c = true) ∧
      (∀ c ∈ blanks, py.isSpace c = true) ∧ name ∈ fileUnits ∧ Spells py name.toList unit := by
  unfold isFileSize at h
  cases hnumber : readNumber py text with
  | none => simp [hnumber] at h
  | some r =>
    obtain ⟨number, rest⟩ := r
    rw [hnumber] at h
    simp only [Bool.or_eq_true, decide_eq_true_eq, any_eq_true] at h
    obtain ⟨hfirst, hrest⟩ : text.takeWhile (anyDigit py) ≠ [] ∧
        rest = text.dropWhile (anyDigit py) := by
      cases text with
      | nil => cases hnumber
      | cons c text =>
        obtain ⟨d, hd, hread⟩ := Option.map_eq_some_iff.mp hnumber
        have hc : anyDigit py c = true := by simp [anyDigit, hd]
        rw [takeWhile_cons_of_pos hc, dropWhile_cons_of_pos hc, ← readDigits_rest d,
          hread]
        simp
    have hspells : ∃ name ∈ fileUnits, Spells py name.toList (rest.dropWhile py.isSpace) := by
      obtain hnil | ⟨name, hname, hdrop⟩ := h
      · exact ⟨"", by decide, by rw [hnil]; exact .nil⟩
      · obtain ⟨spelled, htext, hspells⟩ := dropName_iff.mp hdrop
        rw [append_nil] at htext
        exact ⟨name, mem_cons_of_mem _ hname, htext ▸ hspells⟩
    obtain ⟨name, hname, hspells⟩ := hspells
    refine ⟨text.takeWhile (anyDigit py), rest.takeWhile py.isSpace, rest.dropWhile py.isSpace,
      name, ?_, hfirst, rfl, ?_, ?_, hname, hspells⟩
    · rw [takeWhile_append_dropWhile, hrest, takeWhile_append_dropWhile]
    · exact all_eq_true.mp all_takeWhile
    · exact all_eq_true.mp all_takeWhile

theorem mem_dropWhile {p : Char → Bool} {l : List Char} (hc : c ∈ l) (hp : p c = false) :
    c ∈ l.dropWhile p := by
  induction l with
  | nil => exact hc
  | cons d l ih =>
    cases hd : p d with
    | true =>
      rw [dropWhile_cons_of_pos hd]
      obtain rfl | hc := mem_cons.mp hc
      · rw [hp] at hd
        cases hd
      · exact ih hc
    | false =>
      rw [dropWhile_cons_of_neg (by simp [hd])]
      exact hc

theorem mem_strip {text : String} (hc : c ∈ text.toList) (hspace : py.isSpace c = false) :
    c ∈ (strip py text).toList := by
  rw [strip, String.toList_ofList, mem_reverse]
  apply mem_dropWhile _ hspace
  rw [mem_reverse]
  exact mem_dropWhile hc hspace

theorem flatMap_self (h : ∀ c ∈ text, py.lowerChar c = [c]) : text.flatMap py.lowerChar = text := by
  induction text with
  | nil => rfl
  | cons c text ih =>
    rw [flatMap_cons, h c mem_cons_self,
      ih fun d hd => h d (mem_cons_of_mem _ hd)]
    rfl

variable {blanks : List Char}

theorem lower_size (hpy : py.Lawful) {name : String} (hdigits : ∀ c ∈ digits, anyDigit py c = true)
    (hblanks : ∀ c ∈ blanks, py.isSpace c = true) (hname : name ∈ fileUnits)
    (hspells : Spells py name.toList unit) :
    (py.lower (String.ofList (digits ++ (blanks ++ unit)))).toList =
      digits ++ (blanks ++ name.toList) := by
  have hletters := (fileUnits_plain name hname).1
  have hsigma : 'Σ' ∉ digits ++ (blanks ++ unit) := by
    intro hmem
    simp only [mem_append] at hmem
    obtain hmem | hmem | hmem := hmem
    · have hdigit := hdigits _ hmem
      rw [anyDigit, hpy.sigma.1] at hdigit
      cases hdigit
    · have hblank := hblanks _ hmem
      rw [hpy.sigma.2.1] at hblank
      cases hblank
    · obtain ⟨a, ha, hsame⟩ := hspells.letters _ hmem
      rw [hpy.sigma.2.2 a (hletters a ha).1] at hsame
      cases hsame
  rw [hpy.lower_each _ (by rwa [String.toList_ofList]), String.toList_ofList, flatMap_append,
    flatMap_append, flatMap_self fun c hc => hpy.lowerChar_digit c (hdigits c hc),
    flatMap_self fun c hc => hpy.lowerChar_space c (hblanks c hc)]
  rw [hspells.plain hpy (fun a ha => (hletters a ha).1)]
  intro c hc hodd
  obtain ⟨a, ha, hsame⟩ := hspells.letters c hc
  obtain ⟨hlower, hs, hi⟩ := hletters a ha
  obtain heq | heq := hpy.sameLetter_odd a c hlower hsame hodd
  · exact hs heq
  · exact hi heq

theorem strip_unit (hblanks : ∀ c ∈ blanks, py.isSpace c = true)
    (hunit : ∀ c ∈ unit, py.isSpace c = false) :
    strip py (String.ofList (blanks ++ unit)) = String.ofList unit := by
  have hfront : (blanks ++ unit).dropWhile py.isSpace = unit := by
    rw [dropWhile_append_of_pos hblanks]
    apply dropWhile_of_head
    rw [Option.all_eq_true]
    intro c hc
    simp [hunit c (mem_of_mem_head? hc)]
  have hback : unit.reverse.dropWhile py.isSpace = unit.reverse := by
    apply dropWhile_of_head
    rw [Option.all_eq_true]
    intro c hc
    simp [hunit c (mem_reverse.mp (mem_of_mem_head? hc))]
  rw [strip, String.toList_ofList, hfront, hback, reverse_reverse]

theorem anyDigit_ascii (hpy : py.Lawful) (h : c.isDigit = true) : anyDigit py c = true := by
  have hrange := Text.isDigit_iff.mp h
  rw [anyDigit, hpy.digit_ascii c (by omega), if_pos h]
  rfl

theorem parseByteSize_ascii (hpy : py.Lawful) {name : String} (hne : digits ≠ [])
    (hdigits : ∀ c ∈ digits, c.isDigit = true) (hblanks : ∀ c ∈ blanks, py.isSpace c = true)
    (hname : name ∈ fileUnits) (hspells : Spells py name.toList unit)
    (hstrip : strip py (String.ofList (digits ++ (blanks ++ unit))) =
      String.ofList (digits ++ (blanks ++ unit))) :
    (∃ size, parseByteSize py (String.ofList (digits ++ (blanks ++ unit))) = .ok (some size)) ↔
      ∃ n, py.int (.str (String.ofList digits)) = some n ∧ 0 < n := by
  obtain ⟨hletters, hfactor⟩ := fileUnits_plain name hname
  have hstop : ∀ c ∈ blanks ++ name.toList, c.isDigit = false := by
    intro c hc
    rw [Bool.eq_false_iff]
    intro hdigit
    obtain hc | hc := mem_append.mp hc
    · have hspace := isSpace_word hpy (c := c) (by simp [Char.isAlphanum, hdigit])
      rw [hblanks c hc] at hspace
      cases hspace
    · have := Text.isDigit_iff.mp hdigit
      have := Text.isLower_iff.mp (hletters c hc).1
      omega
  have htake : (digits ++ (blanks ++ name.toList)).takeWhile Char.isDigit = digits := by
    rw [takeWhile_append_of_pos hdigits]
    cases htail : blanks ++ name.toList with
    | nil => simp
    | cons c rest =>
      have hc := hstop c (by simp [htail])
      rw [takeWhile_cons_of_neg (by simp [hc]), append_nil]
  have hdrop : (digits ++ (blanks ++ name.toList)).dropWhile Char.isDigit =
      blanks ++ name.toList := by
    rw [dropWhile_append_of_pos hdigits]
    apply dropWhile_of_head
    rw [Option.all_eq_true]
    intro c hc
    simp [hstop c (mem_of_mem_head? hc)]
  have hunit : strip py (String.ofList (blanks ++ name.toList)) = name := by
    rw [strip_unit hblanks, String.ofList_toList]
    exact fun c hc => py.isSpace_alpha c (Text.isAlpha_of_isLower (hletters c hc).1)
  have hlower :=
    lower_size hpy (fun c hc => anyDigit_ascii hpy (hdigits c hc)) hblanks hname hspells
  unfold parseByteSize
  rw [hstrip, hlower]
  simp only [htake, hdrop, hunit, if_neg hne]
  cases hlookup : byteUnits.lookup name with
  | none => simp [hlookup] at hfactor
  | some factor =>
    have hpos : (0 : Int) < factor := by
      rw [hlookup] at hfactor
      simpa using hfactor
    cases hint : py.int (.str (String.ofList digits)) with
    | none => simp
    | some n =>
      simp only [Option.some.injEq, exists_eq_left', Except.ok.injEq]
      by_cases hn : 0 < n
      · simp [Int.mul_pos hn hpos, hn]
      · have hle := Int.mul_nonpos_of_nonpos_of_nonneg (by omega : n ≤ 0) hpos.le
        simp [not_lt.mpr hle, hn]

theorem parseByteSize_other (hpy : py.Lawful) {name : String}
    (hdigits : ∀ c ∈ digits, anyDigit py c = true) (hother : ¬ ∀ c ∈ digits, c.isDigit = true)
    (hblanks : ∀ c ∈ blanks, py.isSpace c = true) (hname : name ∈ fileUnits)
    (hspells : Spells py name.toList unit)
    (hstrip : strip py (String.ofList (digits ++ (blanks ++ unit))) =
      String.ofList (digits ++ (blanks ++ unit))) :
    parseByteSize py (String.ofList (digits ++ (blanks ++ unit))) = .ok none := by
  have hlower := lower_size hpy hdigits hblanks hname hspells
  unfold parseByteSize
  rw [hstrip, hlower]
  simp only
  split_ifs with hempty
  · rfl
  · have hrest : ∃ c ∈ (digits ++ (blanks ++ name.toList)).dropWhile Char.isDigit,
        128 ≤ c.toNat ∧ py.isSpace c = false := by
      obtain ⟨c, hc, hnot⟩ := by simpa only [not_forall, Bool.not_eq_true] using hother
      refine ⟨c, mem_dropWhile (mem_append_left _ hc) hnot, ?_, ?_⟩
      · by_contra hsmall
        have hdigit := hdigits c hc
        rw [anyDigit, hpy.digit_ascii c (by omega), hnot] at hdigit
        cases hdigit
      · exact hpy.isSpace_digit c (hdigits c hc)
    obtain ⟨c, hc, hlarge, hspace⟩ := hrest
    cases hlookup : byteUnits.lookup (strip py (String.ofList
        ((digits ++ (blanks ++ name.toList)).dropWhile Char.isDigit))) with
    | none => rfl
    | some factor =>
      obtain ⟨before, after, heq, -⟩ := lookup_eq_some_iff.mp hlookup
      have hmem : (_, factor) ∈ byteUnits :=
        heq ▸ mem_append_right before mem_cons_self
      have hsmall := byteUnits_ascii _ hmem c (mem_strip (by rwa [String.toList_ofList]) hspace)
      omega

theorem normaliseValue_size :
    normaliseValue py "delta.targetFileSize" (.text value) schema =
      if isFileSize py (strip py value).toList then .ok (strip py value)
      else .error (.badProperty "delta.targetFileSize") := by
  have hlookup : integerKeys.lookup "delta.targetFileSize" = none := by decide
  unfold normaliseValue
  rw [if_neg (by simp), if_neg (by decide)]
  simp only [hlookup, RawValue.str, if_true]
  rw [if_neg (by decide)]
  rfl

theorem reread_size (hpy : py.Lawful) (hsize : isFileSize py v.toList = true)
    (hstrip : strip py v = v) :
    Reread py schema "delta.targetFileSize" v ↔ PlainSize py v := by
  obtain ⟨digits, blanks, unit, name, htext, hne, htake, hdigits, hblanks, hname, hspells⟩ :=
    isFileSize_parts hsize
  have hv : v = String.ofList (digits ++ (blanks ++ unit)) := by rw [← htext, String.ofList_toList]
  have hproblem : valueProblem py "delta.targetFileSize" v = .ok none ↔
      ∃ size, parseByteSize py v = .ok (some size) := by
    unfold valueProblem
    rw [if_neg (by decide), if_neg (by decide), if_pos rfl]
    cases parseByteSize py v with
    | error e => simp [Except.map]
    | ok size => cases size <;> simp [Except.map]
  have hagain : normaliseValue py "delta.targetFileSize" (.text v) schema = .ok v := by
    rw [normaliseValue_size, hstrip, if_pos hsize]
  rw [Reread, hproblem, and_iff_left hagain, PlainSize, htake]
  rw [hv] at hstrip
  by_cases hascii : ∀ c ∈ digits, c.isDigit = true
  · rw [and_iff_right hascii, hv]
    exact parseByteSize_ascii hpy hne hascii hblanks hname hspells hstrip
  · have hnone := parseByteSize_other hpy hdigits hascii hblanks hname hspells hstrip
    rw [← hv] at hnone
    simp [hnone, hascii]

theorem normaliseValue_isolation :
    normaliseValue py "delta.isolationLevel" (.text value) schema =
      if py.lower (strip py value) = "serializable" then .ok "Serializable"
      else if py.lower (strip py value) = "writeserializable" then .ok "WriteSerializable"
      else .error (.badProperty "delta.isolationLevel") := by
  have hlookup : integerKeys.lookup "delta.isolationLevel" = none := by decide
  unfold normaliseValue
  rw [if_neg (by simp), if_neg (by decide)]
  simp only [hlookup, RawValue.str, if_true]
  rw [if_neg (by decide), if_neg (by decide)]
  rfl

theorem normaliseValue_codec :
    normaliseValue py "delta.parquet.compression.codec" (.text value) schema =
      if py.lower (strip py value) ∈ codecs then .ok (py.lower (strip py value))
      else .error (.badProperty "delta.parquet.compression.codec") := by
  have hlookup : integerKeys.lookup "delta.parquet.compression.codec" = none := by decide
  unfold normaliseValue
  rw [if_neg (by simp), if_neg (by decide)]
  simp only [hlookup, RawValue.str, if_true]
  rw [if_neg (by decide), if_neg (by decide), if_neg (by decide)]
  rfl

theorem normaliseValue_policy :
    normaliseValue py "delta.checkpointPolicy" (.text value) schema =
      if py.lower (strip py value) = "classic" ∨ py.lower (strip py value) = "v2" then
        .ok (py.lower (strip py value))
      else .error (.badProperty "delta.checkpointPolicy") := by
  have hlookup : integerKeys.lookup "delta.checkpointPolicy" = none := by decide
  unfold normaliseValue
  rw [if_neg (by simp), if_neg (by decide)]
  simp only [hlookup, RawValue.str, if_true]
  rw [if_neg (by decide), if_neg (by decide), if_neg (by decide), if_neg (by decide)]
  rfl

theorem normaliseValue_mode :
    normaliseValue py cmMode (.text value) schema = .ok (py.lower (strip py value)) := by
  have hlookup : integerKeys.lookup cmMode = none := by decide
  unfold normaliseValue
  rw [if_neg (by simp), if_neg (by decide)]
  simp only [hlookup, RawValue.str, if_true]
  rw [if_neg (by decide), if_neg (by decide), if_neg (by decide), if_neg (by decide),
    if_neg (by decide)]

theorem normaliseValue_stats :
    normaliseValue py statsColumns (.text value) schema =
      (checkEntries py schema (entries (strip py value))).map fun _ => strip py value := by
  have hlookup : integerKeys.lookup statsColumns = none := by decide
  unfold normaliseValue
  rw [if_neg (by simp), if_neg (by decide)]
  simp only [hlookup, RawValue.str, if_true]
  rw [if_neg (by decide), if_neg (by decide), if_neg (by decide), if_neg (by decide),
    if_neg (by decide), if_neg (by decide)]

theorem valueProblem_free (hstrict : key ∉ strictBooleanKeys)
    (hpositive : key ≠ "delta.checkpointInterval")
    (hsize : key ≠ "delta.targetFileSize")
    (hversion : ¬ (key = "delta.minReaderVersion" ∨ key = "delta.minWriterVersion"))
    (hindexed : key ≠ numIndexed) (hinterval : key ∉ intervalKeys) :
    valueProblem py key v = match enumValues.lookup key with
      | some values => .ok (if v ∈ values then none else some .notOneOf)
      | none => .ok none := by
  unfold valueProblem
  refine (if_neg hstrict).trans ((if_neg hpositive).trans ((if_neg hsize).trans ?_))
  exact (if_neg hversion).trans ((if_neg hindexed).trans (if_neg hinterval))

theorem reread_isolation (hpy : py.Lawful)
    (h : normaliseValue py "delta.isolationLevel" (.text value) schema = .ok v) :
    Reread py schema "delta.isolationLevel" v := by
  rw [normaliseValue_isolation] at h
  constructor
  · exact valueProblem_free (by decide) (by decide) (by decide) (by decide) (by decide) (by decide)
  · by_cases hfirst : py.lower (strip py value) = "serializable"
    · rw [if_pos hfirst] at h
      cases h
      have hlower : py.lower "Serializable" = "serializable" := by
        rw [lower_of_ascii hpy (by decide)]
        decide
      rw [normaliseValue_isolation, strip_word hpy (by decide) (by decide), if_pos hlower]
    · rw [if_neg hfirst] at h
      by_cases hsecond : py.lower (strip py value) = "writeserializable"
      · rw [if_pos hsecond] at h
        cases h
        have hlower : py.lower "WriteSerializable" = "writeserializable" := by
          rw [lower_of_ascii hpy (by decide)]
          decide
        rw [normaliseValue_isolation, strip_word hpy (by decide) (by decide), hlower,
          if_neg (by decide), if_pos rfl]
      · rw [if_neg hsecond] at h
        cases h

theorem codecs_plain : ∀ v ∈ codecs, (v.toList.all fun c => c.toNat < 128 && !c.isUpper) = true ∧
    v.toList.head?.all Char.isAlphanum = true ∧ v.toList.getLast?.all Char.isAlphanum = true := by
  decide

theorem reread_codec (hpy : py.Lawful)
    (h : normaliseValue py "delta.parquet.compression.codec" (.text value) schema = .ok v) :
    Reread py schema "delta.parquet.compression.codec" v := by
  rw [normaliseValue_codec] at h
  constructor
  · exact valueProblem_free (by decide) (by decide) (by decide) (by decide) (by decide) (by decide)
  · split_ifs at h with hmem
    cases h
    obtain ⟨hlower, hhead, hlast⟩ := codecs_plain _ hmem
    rw [normaliseValue_codec, strip_word hpy hhead hlast, py.lower_ascii _ hlower, if_pos hmem]

theorem reread_policy (hpy : py.Lawful)
    (h : normaliseValue py "delta.checkpointPolicy" (.text value) schema = .ok v) :
    Reread py schema "delta.checkpointPolicy" v := by
  rw [normaliseValue_policy] at h
  have hmem : py.lower (strip py value) = "classic" ∨ py.lower (strip py value) = "v2" := by
    by_contra hnot
    rw [if_neg hnot] at h
    cases h
  rw [if_pos hmem] at h
  cases h
  obtain heq | heq := hmem
  · rw [heq]
    constructor
    · rw [valueProblem_free (by decide) (by decide) (by decide) (by decide) (by decide) (by decide)]
      decide
    · rw [normaliseValue_policy, strip_word hpy (by decide) (by decide),
        py.lower_ascii _ (by decide), if_pos (.inl rfl)]
  · rw [heq]
    constructor
    · rw [valueProblem_free (by decide) (by decide) (by decide) (by decide) (by decide) (by decide)]
      decide
    · rw [normaliseValue_policy, strip_word hpy (by decide) (by decide),
        py.lower_ascii _ (by decide), if_pos (.inr rfl)]

/-- `_ENUM_VALUES` of the mapping mode. -/
def modes : List String := ["none", "name", "id"]

theorem modes_plain : ∀ v ∈ modes, (v.toList.all fun c => c.toNat < 128 && !c.isUpper) = true ∧
    v.toList.head?.all Char.isAlphanum = true ∧ v.toList.getLast?.all Char.isAlphanum = true := by
  decide

theorem reread_mode (hpy : py.Lawful)
    (h : normaliseValue py cmMode (.text value) schema = .ok v) :
    Reread py schema cmMode v ↔ py.lower (strip py value) ∈ modes := by
  rw [normaliseValue_mode] at h
  cases h
  have hproblem : valueProblem py cmMode (py.lower (strip py value)) = .ok none ↔
      py.lower (strip py value) ∈ modes := by
    have hlookup : enumValues.lookup cmMode = some modes := by decide
    rw [valueProblem_free (by decide) (by decide) (by decide) (by decide) (by decide) (by decide),
      hlookup]
    simp only
    split_ifs with hmem
    · exact iff_of_true rfl hmem
    · exact iff_of_false (by simp) hmem
  rw [Reread, hproblem, and_iff_left_iff_imp]
  intro hmem
  obtain ⟨hlower, hhead, hlast⟩ := modes_plain _ hmem
  rw [normaliseValue_mode, strip_word hpy hhead hlast, py.lower_ascii _ hlower]

theorem reread_stats (h : normaliseValue py statsColumns (.text value) schema = .ok v) :
    Reread py schema statsColumns v := by
  rw [normaliseValue_stats] at h
  obtain ⟨_, hentries, rfl⟩ := Result.map_eq_ok_iff.mp h
  constructor
  · exact valueProblem_free (by decide) (by decide) (by decide) (by decide) (by decide) (by decide)
  · rw [normaliseValue_stats, strip_strip, hentries]
    rfl

end

end DeltaSwamp.Metadata
