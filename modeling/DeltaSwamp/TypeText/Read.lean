import DeltaSwamp.TypeText.Members

/-!
# Types read back

What a text near that of an array, a map or a struct must be where it is read as it, over
every type, and which types are read back from their own text.
-/

namespace DeltaSwamp.TypeText

open List

open Metadata (DataType Field)
open Storage (isSpace strip)
open Bracketed (Apart Near Off joined split)

/-- How the text of a kind begins: with nothing at which another type ends, so that the kind is
seen and what follows is what it holds. -/
structure Heads (kind : Kind) (name : Text) : Prop where
  solid : Solid name
  ascii : ∀ c ∈ name, c.toNat < 128
  plain : ∀ c ∈ name, ¬ atEnd c
  seen : ∀ rest, kindOf (name.map Char.toLower ++ rest) = some kind
  holds : ∀ rest, ((name ++ rest).dropWhile (· ≠ '<')).tail = rest

theorem heads_array : Heads .array ['A', 'R', 'R', 'A', 'Y', '<'] :=
  ⟨⟨⟨'A', rfl, by decide⟩, '<', rfl, by decide⟩, by decide, by simp [atEnd], fun _ => rfl,
    fun _ => rfl⟩

theorem heads_map : Heads .map ['M', 'A', 'P', '<'] :=
  ⟨⟨⟨'M', rfl, by decide⟩, '<', rfl, by decide⟩, by decide, by simp [atEnd], fun _ => rfl,
    fun _ => rfl⟩

theorem heads_struct : Heads .struct ['S', 'T', 'R', 'U', 'C', 'T', '<'] :=
  ⟨⟨⟨'S', rfl, by decide⟩, '<', rfl, by decide⟩, by decide, by simp [atEnd], fun _ => rfl,
    fun _ => rfl⟩

section
variable (unicode : Unicode)

variable {kind : Kind} {name y : Text}

/-- A text that begins as a kind does is read as what it holds, up to its last character. -/
theorem kind_reads {inner : Text} (hname : Heads kind name) (turns : Nat)
    (hstrip : strip y = name ++ inner) :
    sqlTypeFrom unicode (turns + 1) y =
      if inner.getLast? ≠ some '>' then .error (.unbalanced y)
      else inside (sqlTypeFrom unicode turns) y kind (strip inner.dropLast) := by
  obtain ⟨more, hlower, -⟩ := unicode.lower_ascii name inner hname.ascii
  rw [sqlTypeFrom, hstrip, hlower, hname.holds]
  dsimp only
  rw [hname.seen]

/-- What is read of a text near a kind's: a text near what the kind holds, which is that only where
the whole text is the kind's. -/
theorem kind_near {body x : Text} {n : Nat} {d : DataType} (hname : Heads kind name)
    (hnear : Near atEnd (name ++ body ++ ['>']) x) (hstrip : strip y = strip x)
    (h : sqlTypeFrom unicode n y = .ok d) :
    ∃ turns z, n = turns + 1 ∧ inside (sqlTypeFrom unicode turns) y kind (strip z) = .ok d ∧
      Near (· = '>') body z ∧ (z = body → x = name ++ body ++ ['>']) := by
  cases n with
  | zero => cases h
  | succ turns =>
    rw [append_assoc] at hnear
    obtain ⟨rest, rfl, hrest⟩ := hnear.append_left hname.plain
    rw [strip_append hname.solid] at hstrip
    rw [kind_reads unicode hname turns hstrip] at h
    split_ifs at h with hlast
    rw [not_not, List.getLast?_eq_some_iff] at hlast
    obtain ⟨z, hz⟩ := hlast
    rw [hz, dropLast_concat] at h
    obtain ⟨after, hsplit, hafter⟩ := rstrip_parts rest
    have hwhole : rest = z ++ '>' :: after := by
      rw [hsplit, hz]
      simp
    rw [hwhole] at hrest
    refine ⟨turns, z, rfl, h, ?_, ?_⟩
    · obtain ⟨hsame, -⟩ | hoff := hrest.append_mark
      · exact Or.inl hsame.symm
      · exact Or.inr hoff
    · rintro rfl
      obtain ⟨-, hmore⟩ | hoff := hrest.append_mark
      · obtain rfl | hmore := hmore
        · simp [hwhole]
        · cases hmore with
          | short hc heq => simp at heq
          | @long more c hc heq =>
            rw [nil_append] at heq
            have hspace := hafter c (by simp [heq])
            rw [atEnd_solid hc] at hspace
            cases hspace
      · exact absurd rfl hoff.ne

/-- A text near a type's is read as the type only where it is the type's and the type legible. -/
def Exact (t : SqlType) : Prop :=
  ∀ n x y, Near atEnd t.text x → strip y = strip x → sqlTypeFrom unicode n y = .ok t.delta →
    x = t.text ∧ t.Legible

def SqlFieldOf.text (f : SqlField) : Text := quote f.name ++ [':', ' '] ++ f.type.text

def SqlFieldOf.delta (f : SqlField) : Field := ⟨String.ofList f.name, f.type.delta, true, []⟩

omit unicode in
theorem memberTexts_map (fields : List SqlField) :
    memberTexts fields = fields.map SqlFieldOf.text := by
  induction fields with
  | nil => rfl
  | cons f fields ih => rw [memberTexts, ih]; rfl

omit unicode in
theorem deltaFields_map (fields : List SqlField) :
    deltaFields fields = fields.map SqlFieldOf.delta := by
  induction fields with
  | nil => rfl
  | cons f fields ih => rw [deltaFields, ih]; rfl

omit unicode in
theorem fieldsLegible_iff (fields : List SqlField) :
    FieldsLegible fields ↔ ∀ f ∈ fields, (':' ∉ f.name ∧ '`' ∉ f.name) ∧ f.type.Legible := by
  induction fields with
  | nil => simp [FieldsLegible]
  | cons f fields ih => rw [FieldsLegible, ih, forall_mem_cons, ← and_assoc]

/-- How a part is read as a struct's member. -/
def readMember (turns : Nat) (raw member : Text) : Except NotAType Field :=
  (memberOf raw member).bind fun found =>
    (sqlTypeFrom unicode turns found.2).map fun type => ⟨String.ofList found.1, type, true, []⟩

theorem field_exact {turns : Nat} {raw part : Text} (f : SqlField) (htype : Exact unicode f.type)
    (hnear : Near atEnd f.text part)
    (h : readMember unicode turns raw (strip part) = .ok f.delta) :
    part = f.text ∧ (':' ∉ f.name ∧ '`' ∉ f.name) ∧ f.type.Legible := by
  obtain ⟨⟨name, type⟩, hmember, h⟩ := Result.bind_eq_ok_iff.mp h
  obtain ⟨d, hread, hfield⟩ := Result.map_eq_ok_iff.mp h
  have hname : name = f.name := String.ofList_injective (congrArg Metadata.FieldOf.name hfield)
  have hd : d = f.type.delta := congrArg Metadata.FieldOf.type hfield
  subst hname hd
  obtain ⟨hplain, u, rfl, hstrip, hu⟩ := member_near f.named hnear hmember
  obtain ⟨rfl, hlegible⟩ := htype turns u type hu hstrip hread
  exact ⟨rfl, hplain, hlegible⟩

theorem parts_exact {β : Type} {text : β → Text} {R : Text → β → Prop} {items : List β}
    {L : β → Prop} {z : Text}
    (hexact : ∀ b ∈ items, ∀ part, Near atEnd (text b) part → R (strip part) b →
      part = text b ∧ L b)
    (hnear : Near (· = '>') (joined ',' [' '] (items.map text)) z)
    (h : List.Forall₂ R (splitTop (strip z) ',') items) :
    z = joined ',' [' '] (items.map text) ∧ items ≠ [] ∧ Apart bracket ',' (items.map text) ∧
      ∀ b ∈ items, L b := by
  rw [splitTop_strip, splitTop, forall₂_map_left_iff] at h
  refine Bracketed.joined_of_parts (by decide) (by decide) (by decide) ?_ hexact hnear h
  intro part b hpart
  rwa [singleton_append, strip_space] at hpart

theorem map_exact (key value : SqlType) (hkey : Exact unicode key) (hvalue : Exact unicode value) :
    Exact unicode (.map key value) := by
  intro n x y hnear hstrip h
  rw [SqlType.text] at hnear
  obtain ⟨turns, z, rfl, hinside, hz, hwhole⟩ := kind_near unicode heads_map hnear hstrip h
  have hparts : List.Forall₂ (fun part t => sqlTypeFrom unicode turns part = .ok (SqlType.delta t))
      (splitTop (strip z) ',') [key, value] := by
    rw [inside] at hinside
    split at hinside
    · rename_i hsplit
      obtain ⟨keyType, hkeyRead, hinside⟩ := Result.bind_eq_ok_iff.mp hinside
      obtain ⟨valueType, hvalueRead, hsame⟩ := Result.map_eq_ok_iff.mp hinside
      rw [SqlType.delta, DataType.map.injEq] at hsame
      obtain ⟨rfl, rfl, -⟩ := hsame
      rw [hsplit]
      exact .cons hkeyRead (.cons hvalueRead .nil)
    · cases hinside
  have hexact : ∀ t ∈ [key, value], Exact unicode t := by simp [hkey, hvalue]
  obtain ⟨hbody, -, happart, hall⟩ := parts_exact
    (fun t ht part hpart hread => hexact t ht turns part _ hpart (strip_strip part) hread) hz hparts
  rw [← apart_texts, map_cons, map_cons, map_cons, map_cons, map_nil,
    map_nil, key.text_marks, value.text_marks] at happart
  exact ⟨hwhole hbody, happart, hall key (by simp), hall value (by simp)⟩

theorem struct_exact (fields : List SqlField) (hfields : ∀ f ∈ fields, Exact unicode f.type) :
    Exact unicode (.struct fields) := by
  intro n x y hnear hstrip h
  rw [SqlType.text, memberTexts_map] at hnear
  obtain ⟨turns, z, rfl, hinside, hz, hwhole⟩ := kind_near unicode heads_struct hnear hstrip h
  obtain ⟨read, hread, hsame⟩ := Result.map_eq_ok_iff.mp hinside
  rw [SqlType.delta, DataType.struct.injEq, deltaFields_map] at hsame
  have hparts := Result.forall₂_of_mapM_ok hread
  rw [hsame, forall₂_map_right_iff] at hparts
  obtain ⟨hbody, hne, happart, hall⟩ := parts_exact
    (fun f hf part hpart hmember => field_exact unicode f (hfields f hf) hpart hmember) hz hparts
  rw [SqlType.text, SqlType.Legible, ← memberTexts_marks, apart_texts, fieldsLegible_iff,
    memberTexts_map]
  exact ⟨hwhole hbody, hne, happart, hall⟩

/-- No text but its own is read as a type where its own could stand, and its own only if the type is
legible. -/
theorem type_exact (t : SqlType) : Exact unicode t := by
  induction t using SqlType.induct (Q := fun fields => ∀ f ∈ fields, Exact unicode f.type) with
  | primitive name =>
    intro n x y hnear hstrip h
    rw [SqlType.text] at hnear ⊢
    obtain rfl | hoff := hnear
    · exact ⟨rfl, trivial⟩
    · exact absurd h (primitive_off unicode name hoff hstrip _)
  | decimal precision scale range =>
    intro n x y hnear hstrip h
    obtain rfl | hoff := hnear
    · exact ⟨rfl, trivial⟩
    · exact absurd h (decimal_off unicode range hoff hstrip _)
  | array element ih =>
    intro n x y hnear hstrip h
    rw [SqlType.text] at hnear
    obtain ⟨turns, z, rfl, hinside, hz, hwhole⟩ := kind_near unicode heads_array hnear hstrip h
    obtain ⟨d, hread, hsame⟩ := Result.map_eq_ok_iff.mp hinside
    rw [SqlType.delta, DataType.array.injEq] at hsame
    obtain ⟨rfl, -⟩ := hsame
    obtain ⟨hbody, hlegible⟩ := ih turns z _ (hz.mono fun _ => Or.inr) (strip_strip z) hread
    rw [SqlType.text]
    exact ⟨hwhole hbody, hlegible⟩
  | map key value hkey hvalue => exact map_exact unicode key value hkey hvalue
  | struct fields hfields => exact struct_exact unicode fields hfields
  | nil f hf => cases hf
  | cons f fields htype hfields g hg =>
    rw [mem_cons] at hg
    obtain rfl | hg := hg
    · exact htype
    · exact hfields g hg

/-- With turns for the text's length, a text that is the type's is read as the type. -/
def Readable (t : SqlType) : Prop :=
  ∀ n y, strip y = t.text → t.text.length < n → sqlTypeFrom unicode n y = .ok t.delta

theorem kind_read {body : Text} {n : Nat} (hname : Heads kind name)
    (hstrip : strip y = name ++ body ++ ['>']) (hturns : (name ++ body ++ ['>']).length < n) :
    ∃ turns, body.length < turns ∧
      sqlTypeFrom unicode n y = inside (sqlTypeFrom unicode turns) y kind (strip body) := by
  rw [length_append, length_append, length_singleton] at hturns
  obtain ⟨turns, rfl⟩ := Nat.exists_eq_add_one_of_ne_zero (by omega : n ≠ 0)
  rw [append_assoc] at hstrip
  refine ⟨turns, by omega, ?_⟩
  rw [kind_reads unicode hname turns hstrip, if_neg (by simp), dropLast_concat]

omit unicode in
theorem length_joined {member : Text} {members : List Text} (h : member ∈ members) :
    member.length ≤ (joined ',' [' '] members).length := by
  induction members with
  | nil => cases h
  | cons first members ih =>
    cases members with
    | nil =>
      rw [mem_singleton] at h
      rw [h, joined]
    | cons next more =>
      rw [joined, length_append, length_cons, length_append]
      rw [mem_cons] at h
      obtain rfl | h := h
      · omega
      · have hmore := ih h
        omega

omit unicode in
theorem splitTop_joined {members : List Text} (hne : members ≠ []) (h : Apart bracket ',' members)
    (hsolid : ∀ member ∈ members, Solid member) :
    splitTop (strip (joined ',' [' '] members)) ',' = members := by
  rw [splitTop_strip, splitTop,
    Bracketed.split_joined (by decide) (by decide) strip strip_space hne h]
  exact (map_congr_left fun member hmember => strip_solid (hsolid member hmember)).trans
    (map_id _)

omit unicode in
theorem field_solid (f : SqlField) : Solid f.text := by
  obtain ⟨c, hc, hlast⟩ := f.type.text_solid.last
  refine ⟨⟨'`', rfl, by decide⟩, c, ?_, hlast⟩
  rw [SqlFieldOf.text, List.getLast?_append, Option.mem_def.mp hc]
  rfl

theorem map_readable (key value : SqlType) (hkey : Readable unicode key)
    (hvalue : Readable unicode value) (happart : Apart bracket ',' [key.marks, value.marks]) :
    Readable unicode (.map key value) := by
  intro n y hstrip hturns
  rw [SqlType.text] at hstrip hturns
  obtain ⟨turns, hlength, hread⟩ := kind_read unicode heads_map hstrip hturns
  have hmarks : Apart bracket ',' [key.text, value.text] := by
    rw [← apart_texts]
    simpa [key.text_marks, value.text_marks] using happart
  have hmembers : ∀ t ∈ [key, value], t.text.length < turns := by
    intro t ht
    have hle := length_joined (mem_map_of_mem (f := SqlType.text) ht)
    rw [map_cons, map_cons, map_nil] at hle
    omega
  rw [hread, inside, splitTop_joined (by simp) hmarks (by simp [SqlType.text_solid])]
  dsimp only
  rw [hkey turns _ (strip_solid key.text_solid) (hmembers key (by simp)),
    hvalue turns _ (strip_solid value.text_solid) (hmembers value (by simp)), SqlType.delta]
  rfl

theorem member_readable {turns : Nat} {raw : Text} (f : SqlField) (htype : Readable unicode f.type)
    (hcolon : ':' ∉ f.name) (htick : '`' ∉ f.name) (hturns : f.text.length < turns) :
    readMember unicode turns raw f.text = .ok f.delta := by
  rw [SqlFieldOf.text, length_append] at hturns
  rw [readMember, SqlFieldOf.text, member_read f.named hcolon htick f.type.text_solid]
  have hread := htype turns (' ' :: f.type.text)
    ((strip_space _).trans (strip_solid f.type.text_solid)) (by omega)
  dsimp only [Except.bind]
  rw [hread]
  rfl

theorem struct_readable (fields : List SqlField) (hfields : ∀ f ∈ fields, Readable unicode f.type)
    (hne : fields ≠ []) (happart : Apart bracket ',' (memberMarks fields))
    (hplain : ∀ f ∈ fields, ':' ∉ f.name ∧ '`' ∉ f.name) : Readable unicode (.struct fields) := by
  intro n y hstrip hturns
  rw [SqlType.text] at hstrip hturns
  obtain ⟨turns, hlength, hread⟩ := kind_read unicode heads_struct hstrip hturns
  rw [← memberTexts_marks, apart_texts] at happart
  rw [memberTexts_map] at happart hread hlength
  rw [hread, inside, splitTop_joined (by simpa using hne) happart (by simp [field_solid]),
    mapM_map, SqlType.delta, deltaFields_map]
  refine congrArg (Except.map DataType.struct) (Result.mapM_eq_ok ?_)
  intro f hf
  have hle := length_joined (mem_map_of_mem (f := SqlFieldOf.text) hf)
  obtain ⟨hcolon, htick⟩ := hplain f hf
  exact member_readable unicode f (hfields f hf) hcolon htick (by omega)

theorem legible_readable (t : SqlType) : t.Legible → Readable unicode t := by
  induction t using SqlType.induct
    (Q := fun fields => ∀ f ∈ fields, f.type.Legible → Readable unicode f.type) with
  | primitive name =>
    intro _ n y hstrip hturns
    obtain ⟨turns, rfl⟩ := Nat.exists_eq_add_one_of_ne_zero (by omega : n ≠ 0)
    rw [SqlType.text] at hstrip
    exact primitive_read unicode name turns hstrip
  | decimal precision scale range =>
    intro _ n y hstrip hturns
    obtain ⟨turns, rfl⟩ := Nat.exists_eq_add_one_of_ne_zero (by omega : n ≠ 0)
    exact decimal_read unicode range turns hstrip
  | array element ih =>
    intro hlegible n y hstrip hturns
    rw [SqlType.text] at hstrip hturns
    obtain ⟨turns, hlength, hread⟩ := kind_read unicode heads_array hstrip hturns
    have hinner := ih hlegible turns (strip element.text)
      ((strip_strip _).trans (strip_solid element.text_solid)) hlength
    rw [hread, inside, hinner, SqlType.delta]
    rfl
  | map key value hkey hvalue =>
    rintro ⟨happart, hkeyLegible, hvalueLegible⟩
    exact map_readable unicode key value (hkey hkeyLegible) (hvalue hvalueLegible) happart
  | struct fields hfields =>
    rintro ⟨hne, happart, hmembers⟩
    rw [fieldsLegible_iff] at hmembers
    exact struct_readable unicode fields (fun f hf => hfields f hf (hmembers f hf).2) hne happart
      fun f hf => (hmembers f hf).1
  | nil f hf => cases hf
  | cons f fields htype hfields g hg hlegible =>
    rw [mem_cons] at hg
    obtain rfl | hg := hg
    · exact htype hlegible
    · exact hfields g hg hlegible

/-- The SQL text of a type passes the check of types, and is read back as the type just where the
type is legible. -/
theorem sqlText_exact (t : SqlType) :
    (∃ text, arrowToSql t.arrow = .ok text ∧ sqlTypeToDelta unicode text = .ok t.delta ∧
      sqlType text = some text) ↔ t.Legible := by
  constructor
  · rintro ⟨text, htext, hread, -⟩
    rw [arrowToSql_arrow, Except.ok.injEq] at htext
    subst htext
    exact (type_exact unicode t _ t.text t.text (Or.inl rfl) rfl hread).2
  · intro hlegible
    exact ⟨t.text, arrowToSql_arrow t,
      legible_readable unicode t hlegible _ t.text (strip_solid t.text_solid) (Nat.lt_succ_self _),
      sqlType_text t⟩

end

/-- Letters and digits of ASCII only. -/
def asciiOnly : Unicode where
  lower text := text.map Char.toLower
  digit c := if c.isDigit then some (Text.digitValue c) else none
  lower_ascii first last _ := ⟨last.map Char.toLower, by simp, by rintro rfl; rfl⟩
  digit_ascii _ _ := rfl

/-- A struct whose one field has a backquote in its name. -/
def tickNamed : SqlType := .struct [⟨['a', '`', 'b'], by decide, .primitive .integer⟩]

/-- The field is read back under another name: the backquotes at its ends are taken off, and the two
inside stay two. -/
theorem doubled_tick_stays : ¬ ∃ text, arrowToSql tickNamed.arrow = .ok text ∧
    sqlTypeToDelta asciiOnly text = .ok tickNamed.delta ∧ sqlType text = some text := by
  rintro ⟨text, htext, hread, -⟩
  rw [arrowToSql_arrow, Except.ok.injEq] at htext
  have hother : sqlTypeToDelta asciiOnly tickNamed.text =
      .ok (.struct [⟨String.ofList ['a', '`', '`', 'b'], .primitive "integer", true, []⟩]) := rfl
  rw [← htext, hother] at hread
  revert hread
  decide

end DeltaSwamp.TypeText
