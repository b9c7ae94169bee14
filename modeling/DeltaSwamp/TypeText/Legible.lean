import DeltaSwamp.Dialect.Segments
import DeltaSwamp.TypeText.Spelling

/-!
# The text of a type

What `arrow_to_sql` writes for a Delta type, that `sql_type` lets it through, and the
types whose text the splitter cuts where the writer joined it.
-/

namespace DeltaSwamp.TypeText

open List

open Metadata (decimalType)
open Storage (isSpace strip)
open Bracketed (Apart joined)

def Primitive.sql : Primitive → Text
  | .boolean => ['B', 'O', 'O', 'L', 'E', 'A', 'N']
  | .byte => ['T', 'I', 'N', 'Y', 'I', 'N', 'T']
  | .short => ['S', 'M', 'A', 'L', 'L', 'I', 'N', 'T']
  | .integer => ['I', 'N', 'T']
  | .long => ['B', 'I', 'G', 'I', 'N', 'T']
  | .float => ['F', 'L', 'O', 'A', 'T']
  | .double => ['D', 'O', 'U', 'B', 'L', 'E']
  | .string => ['S', 'T', 'R', 'I', 'N', 'G']
  | .binary => ['B', 'I', 'N', 'A', 'R', 'Y']
  | .date => ['D', 'A', 'T', 'E']
  | .timestamp => ['T', 'I', 'M', 'E', 'S', 'T', 'A', 'M', 'P']
  | .timestampNtz => ['T', 'I', 'M', 'E', 'S', 'T', 'A', 'M', 'P', '_', 'N', 'T', 'Z']

mutual

/-- A type as SQL text. -/
def SqlType.text : SqlType → Text
  | .primitive name => name.sql
  | .decimal precision scale _ =>
    ['D', 'E', 'C', 'I', 'M', 'A', 'L', '('] ++
      (Nat.toDigits 10 precision ++ ',' :: Nat.toDigits 10 scale) ++ [')']
  | .array element => ['A', 'R', 'R', 'A', 'Y', '<'] ++ element.text ++ ['>']
  | .map key value => ['M', 'A', 'P', '<'] ++ joined ',' [' '] [key.text, value.text] ++ ['>']
  | .struct fields =>
    ['S', 'T', 'R', 'U', 'C', 'T', '<'] ++ joined ',' [' '] (memberTexts fields) ++ ['>']

def memberTexts : List SqlField → List Text
  | [] => []
  | ⟨name, _, type⟩ :: fields => (quote name ++ [':', ' '] ++ type.text) :: memberTexts fields

end

/-- The brackets and the comma. -/
def isMark (c : Char) : Bool := c ∈ ['<', '>', '(', ')', ',']

mutual

/-- The brackets and commas of a type, in its names too. -/
def SqlType.marks : SqlType → Text
  | .primitive _ => []
  | .decimal _ _ _ => ['(', ',', ')']
  | .array element => '<' :: element.marks ++ ['>']
  | .map key value => '<' :: joined ',' [] [key.marks, value.marks] ++ ['>']
  | .struct fields => '<' :: joined ',' [] (memberMarks fields) ++ ['>']

def memberMarks : List SqlField → List Text
  | [] => []
  | ⟨name, _, type⟩ :: fields => (name.filter isMark ++ type.marks) :: memberMarks fields

end

mutual

/-- Every struct has a field and no field's name holds a colon or a backquote; and counting brackets
in the names too, the parts of a map or a struct stay apart: no comma in one is outside its
brackets, and each but the last closes what it opens. -/
def SqlType.Legible : SqlType → Prop
  | .primitive _ => True
  | .decimal _ _ _ => True
  | .array element => element.Legible
  | .map key value => Apart bracket ',' [key.marks, value.marks] ∧ key.Legible ∧ value.Legible
  | .struct fields => fields ≠ [] ∧ Apart bracket ',' (memberMarks fields) ∧ FieldsLegible fields

def FieldsLegible : List SqlField → Prop
  | [] => True
  | ⟨name, _, type⟩ :: fields =>
    (':' ∉ name ∧ '`' ∉ name) ∧ type.Legible ∧ FieldsLegible fields

end

variable {c : Char}

theorem not_isMark (h : isMark c = false) : bracket c = 0 ∧ c ≠ ',' := by
  simp only [isMark, mem_cons, not_mem_nil, or_false, decide_eq_false_iff_not,
    not_or] at h
  simp [bracket, h]

theorem digits_ascii (n : Nat) : ∀ c ∈ Nat.toDigits 10 n, c.isDigit = true := by
  intro c hc
  exact Nat.isDigit_of_mem_toDigits (by omega) (by omega) hc

theorem digit_plain (h : c.isDigit = true) : 48 ≤ c.toNat ∧ c.toNat ≤ 57 := by
  simp only [Char.isDigit, Bool.and_eq_true, decide_eq_true_eq, ge_iff_le,
    UInt32.le_iff_toNat_le] at h
  exact h

theorem digit_ne {d : Char} (h : c.isDigit = true) (hd : d.toNat < 48 ∨ 57 < d.toNat) : c ≠ d := by
  rintro rfl
  have hbounds := digit_plain h
  omega

theorem digits_unmarked (n : Nat) : (Nat.toDigits 10 n).filter isMark = [] := by
  rw [filter_eq_nil_iff]
  intro c hc hmark
  have hdigit := digits_ascii n c hc
  simp only [isMark, mem_cons, not_mem_nil, or_false, decide_eq_true_eq] at hmark
  obtain rfl | rfl | rfl | rfl | rfl := hmark <;> revert hdigit <;> decide

theorem double_filter {p : Char → Bool} {mark : Char} (hmark : p mark = false) (text : Text) :
    (Doubled.double mark text).filter p = text.filter p := by
  induction text with
  | nil => rfl
  | cons c text ih =>
    by_cases hc : c = mark
    · subst hc
      rw [Doubled.double_mark]
      simp [hmark, ih]
    · rw [Doubled.double_other hc, filter_cons, filter_cons, ih]

theorem quote_filter (name : Text) : (quote name).filter isMark = name.filter isMark := by
  have htick : isMark '`' = false := by decide
  simp [quote, htick, double_filter htick]

theorem Primitive.sql_unmarked (name : Primitive) : name.sql.filter isMark = [] := by
  cases name <;> decide

mutual

theorem SqlType.text_marks : ∀ t : SqlType, t.text.filter isMark = t.marks
  | .primitive name => name.sql_unmarked
  | .decimal precision scale _ => by
    have hname : ['D', 'E', 'C', 'I', 'M', 'A', 'L', '('].filter isMark = ['('] := by decide
    have hcomma : isMark ',' = true := by decide
    have hclose : [')'].filter isMark = [')'] := by decide
    rw [SqlType.text, SqlType.marks, filter_append, filter_append, filter_append,
      filter_cons_of_pos hcomma, hname, hclose, digits_unmarked, digits_unmarked]
    rfl
  | .array element => by
    have hname : ['A', 'R', 'R', 'A', 'Y', '<'].filter isMark = ['<'] := by decide
    have hclose : ['>'].filter isMark = ['>'] := by decide
    rw [SqlType.text, SqlType.marks, filter_append, filter_append, hname, hclose,
      element.text_marks]
    rfl
  | .map key value => by
    have hname : ['M', 'A', 'P', '<'].filter isMark = ['<'] := by decide
    have hclose : ['>'].filter isMark = ['>'] := by decide
    rw [SqlType.text, SqlType.marks, filter_append, filter_append, hname, hclose,
      Bracketed.joined_filter isMark (by decide) (by decide), map_cons, map_cons,
      map_nil, key.text_marks, value.text_marks]
    rfl
  | .struct fields => by
    have hname : ['S', 'T', 'R', 'U', 'C', 'T', '<'].filter isMark = ['<'] := by decide
    have hclose : ['>'].filter isMark = ['>'] := by decide
    rw [SqlType.text, SqlType.marks, filter_append, filter_append, hname, hclose,
      Bracketed.joined_filter isMark (by decide) (by decide), memberTexts_marks fields]
    rfl

theorem memberTexts_marks : ∀ fields : List SqlField,
    (memberTexts fields).map (fun member => member.filter isMark) = memberMarks fields
  | [] => rfl
  | ⟨name, _, type⟩ :: fields => by
    have hcolon : [':', ' '].filter isMark = [] := by decide
    rw [memberTexts, memberMarks, map_cons, filter_append, filter_append,
      quote_filter, hcolon, type.text_marks, memberTexts_marks fields, append_nil]

end

theorem apart_texts (members : List Text) :
    Apart bracket ',' (members.map fun member => member.filter isMark) ↔
      Apart bracket ',' members :=
  Bracketed.apart_filter isMark (fun _ => not_isMark) members

theorem toString_digits (n : Nat) : (toString (n : Int)).toList = Nat.toDigits 10 n := by
  change (Nat.repr n).toList = _
  rw [Nat.repr, String.toList_ofList]

mutual

theorem arrowToSql_arrow : ∀ t : SqlType, arrowToSql t.arrow = .ok t.text
  | .primitive name => by cases name <;> rfl
  | .decimal precision scale range => by
    have hsmall : ¬ (38 : Int) < precision := by omega
    rw [SqlType.arrow, arrowToSql, if_neg hsmall, SqlType.text, toString_digits, toString_digits]
    simp
  | .array element => by
    rw [SqlType.arrow, arrowToSql, if_pos (Or.inl rfl), arrowToSql_arrow element]
    rfl
  | .map key value => by
    rw [SqlType.arrow, arrowToSql, arrowToSql_arrow key, arrowToSql_arrow value, SqlType.text]
    simp [Except.bind, Except.map, joined]
  | .struct fields => by
    rw [SqlType.arrow, arrowToSql, membersToSql_arrow fields]
    rfl

theorem membersToSql_arrow : ∀ fields : List SqlField,
    membersToSql (arrowFields fields) = .ok (memberTexts fields)
  | [] => rfl
  | ⟨name, _, type⟩ :: fields => by
    rw [arrowFields, membersToSql, arrowToSql_arrow type, membersToSql_arrow fields]
    simp [Except.bind, Except.map, memberTexts, notNull, String.toList_ofList]

end

/-- A text that begins and ends with no white space. -/
structure Solid (text : Text) : Prop where
  first : ∃ c ∈ text.head?, isSpace c = false
  last : ∃ c ∈ text.getLast?, isSpace c = false

variable {first text : Text}

theorem Solid.between {d : Char} (hhead : first.head? = some c) (hc : isSpace c = false)
    (hd : isSpace d = false) : Solid (first ++ text ++ [d]) := by
  refine ⟨⟨c, ?_, hc⟩, d, by simp, hd⟩
  rw [append_assoc, List.head?_append, hhead]
  rfl

theorem SqlType.text_solid (t : SqlType) : Solid t.text := by
  cases t with
  | primitive name =>
    rw [SqlType.text]
    cases name <;> exact ⟨⟨_, rfl, by decide⟩, _, rfl, by decide⟩
  | decimal precision scale =>
    rw [SqlType.text]
    exact .between (c := 'D') rfl (by decide) (by decide)
  | array element =>
    rw [SqlType.text]
    exact .between (c := 'A') rfl (by decide) (by decide)
  | map key value =>
    rw [SqlType.text]
    exact .between (c := 'M') rfl (by decide) (by decide)
  | struct fields =>
    rw [SqlType.text]
    exact .between (c := 'S') rfl (by decide) (by decide)

theorem SqlType.text_head (t : SqlType) : ∃ c ∈ t.text.head?, c.isUpper = true := by
  cases t with
  | primitive name =>
    rw [SqlType.text]
    cases name <;> exact ⟨_, rfl, by decide⟩
  | decimal precision scale => exact ⟨'D', by simp [SqlType.text], by decide⟩
  | array element => exact ⟨'A', by simp [SqlType.text], by decide⟩
  | map key value => exact ⟨'M', by simp [SqlType.text], by decide⟩
  | struct fields => exact ⟨'S', by simp [SqlType.text], by decide⟩

theorem strip_solid (h : Solid text) : strip text = text := by
  obtain ⟨⟨c, hc, hfirst⟩, d, hd, hlast⟩ := h
  obtain ⟨rest, rfl⟩ : ∃ rest, text = c :: rest := by
    cases text with
    | nil => cases hc
    | cons e rest => exact ⟨rest, by simpa [eq_comm] using hc⟩
  have hrev : (c :: rest).reverse.dropWhile isSpace = (c :: rest).reverse := by
    rw [Option.mem_def, List.getLast?_eq_head?_reverse] at hd
    cases hcases : (c :: rest).reverse with
    | nil => rfl
    | cons e more =>
      rw [hcases, List.head?_cons, Option.some.injEq] at hd
      rw [dropWhile_cons_of_neg (by simp [hd, hlast])]
  rw [strip, dropWhile_cons_of_neg (by simp [hfirst]), hrev, reverse_reverse]

theorem nameText_double (name : Text) : Dialect.NameText (Doubled.double '`' name ++ ['`']) := by
  induction name with
  | nil => exact .close
  | cons c name ih =>
    by_cases hc : c = '`'
    · subst hc
      rw [Doubled.double_mark]
      exact .doubled ih
    · rw [Doubled.double_other hc]
      exact .plain hc ih

theorem unquotedFrom_plain (hplain : text.all sqlTypeChar = true) (turns : Nat) (rest : Text) :
    unquotedFrom (text.length + turns) (text ++ rest) = text ++ unquotedFrom turns rest := by
  induction text with
  | nil => simp
  | cons c text ih =>
    rw [all_cons, Bool.and_eq_true] at hplain
    have hc : c ≠ '`' := by
      rintro rfl
      exact absurd hplain.1 (by decide)
    have hlength : (c :: text).length + turns = text.length + turns + 1 := by
      rw [length_cons]
      omega
    rw [hlength, cons_append, unquotedFrom, Dialect.quotedName, if_neg hc]
    dsimp only
    rw [ih hplain.2]
    rfl

/-- A text whose quoted names are set aside, and in which the rest is allowed. -/
def Unquotes (text : Text) : Prop :=
  ∃ out : Text, out.all sqlTypeChar = true ∧ (text ≠ [] → out ≠ []) ∧
    ∀ rest turns, rest.head? ≠ some '`' → text.length + rest.length ≤ turns →
      ∃ turns', rest.length ≤ turns' ∧
        unquotedFrom turns (text ++ rest) = out ++ unquotedFrom turns' rest

theorem Unquotes.plain (hplain : text.all sqlTypeChar = true) : Unquotes text := by
  refine ⟨text, hplain, id, ?_⟩
  intro rest turns _ hturns
  obtain ⟨more, rfl⟩ := Nat.exists_eq_add_of_le hturns
  refine ⟨rest.length + more, by omega, ?_⟩
  rw [Nat.add_assoc, unquotedFrom_plain hplain]

theorem Unquotes.after_plain (hplain : first.all sqlTypeChar = true) (h : Unquotes text) :
    Unquotes (first ++ text) := by
  obtain ⟨out, hout, hne, hread⟩ := h
  refine ⟨first ++ out, by rw [all_append, hplain, hout]; rfl, ?_, ?_⟩
  · intro hnil
    rw [ne_eq, append_eq_nil_iff, not_and_or] at hnil ⊢
    exact hnil.imp id hne
  · intro rest turns hrest hturns
    rw [length_append] at hturns
    obtain ⟨more, rfl⟩ : ∃ more, turns = first.length + more :=
      Nat.exists_eq_add_of_le (by omega)
    obtain ⟨turns', hturns', heq⟩ := hread rest more hrest (by omega)
    exact ⟨turns', hturns', by rw [append_assoc, unquotedFrom_plain hplain, heq,
      append_assoc]⟩

theorem Unquotes.append {last : Text} (hfirst : Unquotes first) (hlast : Unquotes last)
    (hhead : ∃ c ∈ last.head?, c ≠ '`') : Unquotes (first ++ last) := by
  obtain ⟨out, hout, hne, hread⟩ := hfirst
  obtain ⟨out', hout', hne', hread'⟩ := hlast
  obtain ⟨c, hc, htick⟩ := hhead
  have hmark : ∀ rest : Text, (last ++ rest).head? ≠ some '`' := by
    intro rest
    rw [List.head?_append, Option.mem_def.mp hc]
    simpa using htick
  refine ⟨out ++ out', by rw [all_append, hout, hout']; rfl, ?_, ?_⟩
  · intro _ hnil
    have hlastne : last ≠ [] := by
      rintro rfl
      cases hc
    exact hne' hlastne (append_eq_nil_iff.mp hnil).2
  · intro rest turns hrest hturns
    rw [length_append] at hturns
    obtain ⟨more, hmore, heq⟩ := hread (last ++ rest) turns (hmark rest) (by
      rw [length_append]
      omega)
    obtain ⟨turns', hturns', heq'⟩ := hread' rest more hrest (by
      rw [length_append] at hmore
      omega)
    exact ⟨turns', hturns', by rw [append_assoc, heq, heq', append_assoc]⟩

theorem Unquotes.quote (name : Text) : Unquotes (quote name) := by
  refine ⟨['q'], by decide, by simp, ?_⟩
  intro rest turns hrest hturns
  have hread := Dialect.quotedName_append (nameText_double name)
    fun hsame : rest.head? = some '`' => absurd hsame hrest
  have hsplit : TypeText.quote name ++ rest =
      '`' :: (Doubled.double '`' name ++ ['`'] ++ rest) := rfl
  have hlength : (TypeText.quote name).length = (Doubled.double '`' name).length + 2 := by
    simp [TypeText.quote]
  obtain ⟨turns, rfl⟩ := Nat.exists_eq_add_one_of_ne_zero (by omega : turns ≠ 0)
  rw [cons_append] at hread
  exact ⟨turns, by omega, by rw [hsplit, unquotedFrom, hread]; rfl⟩

theorem Unquotes.joined {members : List Text} (h : ∀ member ∈ members, Unquotes member) :
    Unquotes (joined ',' [' '] members) := by
  induction members with
  | nil => exact .plain rfl
  | cons first members ih =>
    cases members with
    | nil => exact h first (by simp)
    | cons next more =>
      have hrest := ih fun member hmember => h member (mem_cons_of_mem _ hmember)
      have hgap : [',', ' '].all sqlTypeChar = true := by decide
      exact (h first (by simp)).append (hrest.after_plain hgap) ⟨',', rfl, by decide⟩

theorem digits_sqlTypeChar (n : Nat) : (Nat.toDigits 10 n).all sqlTypeChar = true := by
  rw [all_eq_true]
  intro c hc
  have hbounds := digit_plain (digits_ascii n c hc)
  have hdigit : Text.isAsciiDigit c = true := by
    simp only [Text.isAsciiDigit, Bool.and_eq_true, decide_eq_true_eq, Char.le_def,
      UInt32.le_iff_toNat_le]
    exact hbounds
  simp [sqlTypeChar, Text.isAsciiAlphanumeric, hdigit]

mutual

theorem SqlType.text_unquotes : ∀ t : SqlType, Unquotes t.text
  | .primitive name => by
    rw [SqlType.text]
    cases name <;> exact .plain (by decide)
  | .decimal precision scale _ => by
    refine .plain ?_
    simp only [SqlType.text, all_append, all_cons, all_nil, digits_sqlTypeChar]
    decide
  | .array element => by
    rw [SqlType.text, append_assoc]
    exact .after_plain (by decide) (element.text_unquotes.append (.plain (by decide))
      ⟨'>', rfl, by decide⟩)
  | .map key value => by
    rw [SqlType.text, append_assoc]
    refine .after_plain (by decide) (Unquotes.append (.joined ?_) (.plain (by decide))
      ⟨'>', rfl, by decide⟩)
    intro member hmember
    rw [mem_cons, mem_singleton] at hmember
    obtain rfl | rfl := hmember
    · exact key.text_unquotes
    · exact value.text_unquotes
  | .struct fields => by
    rw [SqlType.text, append_assoc]
    exact .after_plain (by decide) (Unquotes.append (.joined (memberTexts_unquote fields))
      (.plain (by decide)) ⟨'>', rfl, by decide⟩)

theorem memberTexts_unquote : ∀ fields : List SqlField,
    ∀ member ∈ memberTexts fields, Unquotes member
  | [] => by simp [memberTexts]
  | ⟨name, _, type⟩ :: fields => by
    intro member hmember
    rw [memberTexts, mem_cons] at hmember
    obtain rfl | hmember := hmember
    · rw [append_assoc]
      exact (Unquotes.quote name).append (type.text_unquotes.after_plain (by decide))
        ⟨':', rfl, by decide⟩
    · exact memberTexts_unquote fields member hmember

end

/-- A type's own text passes the check unchanged. -/
theorem sqlType_text (t : SqlType) : sqlType t.text = some t.text := by
  obtain ⟨out, hout, hne, hread⟩ := t.text_unquotes
  obtain ⟨c, hc, -⟩ := t.text_head
  have hnil : t.text ≠ [] := by
    intro hnil
    rw [hnil] at hc
    cases hc
  obtain ⟨turns, -, heq⟩ := hread [] t.text.length (by simp) (by simp)
  have hend : unquotedFrom turns [] = [] := by cases turns <;> rfl
  rw [append_nil, hend, append_nil] at heq
  have hlast : out.getLast? ≠ some '\n' := by
    intro hlast
    exact absurd (all_eq_true.mp hout _ (mem_of_getLast? hlast)) (by decide)
  have hmatch : matchesSqlType out = true := by
    rw [matchesSqlType, if_neg hlast]
    simp [hne hnil, hout]
  unfold sqlType
  rw [strip_solid t.text_solid]
  dsimp only
  rw [heq, hmatch]
  simp [hnil]

end DeltaSwamp.TypeText
