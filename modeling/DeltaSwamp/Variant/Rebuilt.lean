import DeltaSwamp.TypeText.Read
import DeltaSwamp.Variant.Parsed

/-!
# The SQL that parses VARIANTs

`_variant_sql` of `engine/sql.py`: the expression that rebuilds a staged value with the JSON text
in it parsed, and what the expression evaluates to.
-/

namespace DeltaSwamp.Variant

open List

open TypeText (Unicode quote)

mutual

/-- The Arrow types of staged values. -/
inductive Staged
  | string (large : Bool)
  | list (large : Bool) (element : Staged)
  | map (key item : Staged)
  | struct (fields : StagedFields)
  | other

inductive StagedFields
  | nil
  | cons (name : Text) (type : Staged) (rest : StagedFields)

end

mutual

inductive Sql
  | column (name : Text)
  /-- `__e0`, `__k0`, `__v0` -/
  | parameter (kind : Char) (depth : ℕ)
  | field (of : Sql) (name : Text)
  | parseJson (of : Sql)
  /-- `CASE WHEN of IS NULL THEN NULL ELSE result END` -/
  | unlessNull (of result : Sql)
  | namedStruct (parts : Parts)
  | transform (of : Sql) (depth : ℕ) (body : Sql)
  | transformValues (of : Sql) (depth : ℕ) (body : Sql)

inductive Parts
  | nil
  | cons (name : Text) (value : Sql) (rest : Parts)

end

def parameterName (kind : Char) (depth : ℕ) : Text := '_' :: '_' :: kind :: Nat.toDigits 10 depth

mutual

def Sql.text : Sql → Text
  | .column name => quote name
  | .parameter kind depth => parameterName kind depth
  | .field of name => of.text ++ '.' :: quote name
  | .parseJson of => ['p', 'a', 'r', 's', 'e', '_', 'j', 's', 'o', 'n', '('] ++ of.text ++ [')']
  | .unlessNull of result =>
    ['C', 'A', 'S', 'E', ' ', 'W', 'H', 'E', 'N', ' '] ++ of.text ++
      [' ', 'I', 'S', ' ', 'N', 'U', 'L', 'L', ' ', 'T', 'H', 'E', 'N', ' ', 'N', 'U', 'L', 'L',
        ' ', 'E', 'L', 'S', 'E', ' '] ++ result.text ++ [' ', 'E', 'N', 'D']
  | .namedStruct parts =>
    ['n', 'a', 'm', 'e', 'd', '_', 's', 't', 'r', 'u', 'c', 't', '('] ++
      Bracketed.joined ',' [' '] parts.texts ++ [')']
  | .transform of depth body =>
    ['t', 'r', 'a', 'n', 's', 'f', 'o', 'r', 'm', '('] ++ of.text ++ [',', ' '] ++
      parameterName 'e' depth ++ [' ', '-', '>', ' '] ++ body.text ++ [')']
  | .transformValues of depth body =>
    ['t', 'r', 'a', 'n', 's', 'f', 'o', 'r', 'm', '_', 'v', 'a', 'l', 'u', 'e', 's', '('] ++
      of.text ++ [',', ' ', '('] ++ parameterName 'k' depth ++ [',', ' '] ++
      parameterName 'v' depth ++ [')', ' ', '-', '>', ' '] ++ body.text ++ [')']

def Parts.texts : Parts → List Text
  | .nil => []
  | .cons name value rest => (Dialect.sqlLiteral name ++ [',', ' '] ++ value.text) :: rest.texts

end

section
variable (unicode : Unicode)

mutual

/-- `_variant_sql` -/
def variantSql (expr : Sql) : Staged → Option Tree → ℕ → Sql
  | _, none, _ => expr
  | .string _, some .variant, _ => .parseJson expr
  | .struct fields, some (.struct inner), depth =>
    let rebuilt := rebuild expr fields inner depth
    if rebuilt.2 then .unlessNull expr (.namedStruct rebuilt.1) else expr
  | .list _ element, some (.array inner), depth =>
    let sub := variantSql (.parameter 'e' depth) element (some inner) (depth + 1)
    if sub.text = (Sql.parameter 'e' depth).text then expr else .transform expr depth sub
  | .map _ item, some (.map inner), depth =>
    let sub := variantSql (.parameter 'v' depth) item (some inner) (depth + 1)
    if sub.text = (Sql.parameter 'v' depth).text then expr else .transformValues expr depth sub
  | _, some _, _ => expr

/-- A struct's fields, each rebuilt, and whether one changed. -/
def rebuild (expr : Sql) : StagedFields → Dict Text Tree → ℕ → Parts × Bool
  | .nil, _, _ => (.nil, false)
  | .cons name type rest, inner, depth =>
    let sub := variantSql (.field expr name) type (inner.get (unicode.lower name)) depth
    let more := rebuild expr rest inner depth
    (.cons name sub more.1, decide (sub.text ≠ (Sql.field expr name).text) || more.2)

end

end

inductive Value
  | null
  | text (text : Text)
  /-- The VARIANT a JSON text spells. -/
  | variant (json : Text)
  | other (code : ℕ)
  | struct (fields : List (Text × Value))
  | array (elements : List Value)
  | map (entries : List (Value × Value))

mutual

/-- The values of a staged type: NULL is one of every type. -/
def Staged.Holds : Staged → Value → Prop
  | _, .null => True
  | .string _, .text _ => True
  | .other, .other _ => True
  | .list _ element, .array elements => ∀ v ∈ elements, element.Holds v
  | .map key item, .map entries => ∀ e ∈ entries, key.Holds e.1 ∧ item.Holds e.2
  | .struct fields, .struct values => fields.Holds values
  | _, _ => False

def StagedFields.Holds : StagedFields → List (Text × Value) → Prop
  | .nil, [] => True
  | .cons name type rest, (n, v) :: values => n = name ∧ type.Holds v ∧ rest.Holds values
  | _, _ => False

end

section
variable (unicode : Unicode)

/-- The type of a field, by its name ignoring case. -/
def Fields.find (name : Text) : Fields → Option Ty
  | .nil => none
  | .cons n type _ rest =>
    if unicode.lower n.text = unicode.lower name then some type else rest.find name

def StagedFields.names : StagedFields → List Text
  | .nil => []
  | .cons name _ rest => unicode.lower name :: rest.names

mutual

/-- A staged type of the same shape as a type: its structs hold fields of the type's structs,
in any order and letter case. -/
def Staged.Shaped : Staged → Ty → Prop
  | _, .variant => True
  | _, .scalar _ _ _ => True
  | .list _ element, .array type => element.Shaped type
  | .map _ item, .map _ type => item.Shaped type
  | .struct fields, .struct types => (fields.names unicode).Nodup ∧ fields.Shaped types
  | _, _ => False

def StagedFields.Shaped : StagedFields → Fields → Prop
  | .nil, _ => True
  | .cons name type rest, types =>
    (∃ t, types.find unicode name = some t ∧ type.Shaped t) ∧ rest.Shaped types

end

mutual

/-- A value with the text at the VARIANTs of a type parsed, and all else as it was. -/
def Ty.stored : Ty → Value → Value
  | .variant, .text json => .variant json
  | .array element, .array elements => .array (elements.map element.stored)
  | .map _ value, .map entries => .map (entries.map fun e => (e.1, value.stored e.2))
  | .struct fields, .struct values =>
    .struct (values.map fun e => (e.1, fields.storedField e.1 e.2))
  | _, value => value

def Fields.storedField (name : Text) : Fields → Value → Value
  | .nil, value => value
  | .cons n type _ rest, value =>
    if unicode.lower n.text = unicode.lower name then type.stored value
    else rest.storedField name value

end

/-- What the names of a place stand for, lower-cased, the innermost first. -/
abbrev Scope := Dict Text Value

mutual

/-- The value of an expression, where it has one. -/
def Sql.eval : Sql → Scope → Option Value
  | .column name, scope => scope.get (unicode.lower name)
  | .parameter kind depth, scope => scope.get (unicode.lower (parameterName kind depth))
  | .field of name, scope =>
    match of.eval scope with
    | some .null => some .null
    | some (.struct values) =>
      (values.find? fun e => unicode.lower e.1 = unicode.lower name).map Prod.snd
    | _ => none
  | .parseJson of, scope =>
    match of.eval scope with
    | some .null => some .null
    | some (.text json) => some (.variant json)
    | _ => none
  | .unlessNull of result, scope =>
    match of.eval scope with
    | some .null => some .null
    | some _ => result.eval scope
    | none => none
  | .namedStruct parts, scope => (parts.eval scope).map .struct
  | .transform of depth body, scope =>
    match of.eval scope with
    | some .null => some .null
    | some (.array elements) =>
      (elements.mapM fun v =>
        body.eval ((unicode.lower (parameterName 'e' depth), v) :: scope)).map .array
    | _ => none
  | .transformValues of depth body, scope =>
    match of.eval scope with
    | some .null => some .null
    | some (.map entries) =>
      (entries.mapM fun e =>
        (body.eval ((unicode.lower (parameterName 'k' depth), e.1) ::
          (unicode.lower (parameterName 'v' depth), e.2) :: scope)).map fun v =>
            (e.1, v)).map .map
    | _ => none

def Parts.eval : Parts → Scope → Option (List (Text × Value))
  | .nil, _ => some []
  | .cons name value rest, scope =>
    (value.eval scope).bind fun v => (rest.eval scope).map fun more => (name, v) :: more

end

attribute [simp] Sql.eval

end

section
variable {unicode : Unicode}

theorem variantSql_same (expr : Sql) (staged : Staged) (tree : Option Tree) (depth : ℕ) :
    variantSql unicode expr staged tree depth = expr ∨
      expr.text.length < (variantSql unicode expr staged tree depth).text.length := by
  cases tree with
  | none => exact .inl (by cases staged <;> rfl)
  | some tree =>
    cases staged with
    | other => exact .inl (by cases tree <;> rfl)
    | string large =>
      cases tree with
      | variant =>
        apply Or.inr
        simp only [variantSql, Sql.text, length_append, length_cons]
        omega
      | struct fields => exact .inl rfl
      | array inner => exact .inl rfl
      | map inner => exact .inl rfl
    | struct fields =>
      cases tree with
      | struct inner =>
        rw [variantSql]
        split_ifs
        · apply Or.inr
          simp only [Sql.text, length_append, length_cons]
          omega
        · exact .inl rfl
      | variant => exact .inl rfl
      | array inner => exact .inl rfl
      | map inner => exact .inl rfl
    | list large element =>
      cases tree with
      | array inner =>
        rw [variantSql]
        split_ifs
        · exact .inl rfl
        · apply Or.inr
          simp only [Sql.text, length_append, length_cons]
          omega
      | variant => exact .inl rfl
      | struct inner => exact .inl rfl
      | map inner => exact .inl rfl
    | map key item =>
      cases tree with
      | map inner =>
        rw [variantSql]
        split_ifs
        · exact .inl rfl
        · apply Or.inr
          simp only [Sql.text, length_append, length_cons]
          omega
      | variant => exact .inl rfl
      | struct inner => exact .inl rfl
      | array inner => exact .inl rfl

variable {expr : Sql} {depth : ℕ}

theorem eq_of_text {staged : Staged} {tree : Option Tree}
    (h : (variantSql unicode expr staged tree depth).text = expr.text) :
    variantSql unicode expr staged tree depth = expr := by
  obtain heq | hlonger := @variantSql_same unicode expr staged tree depth
  · exact heq
  · rw [h] at hlonger
    omega

variable {fields : Fields}

theorem kept_get (h : (fields.names unicode).Nodup) (name : Text) :
    (fields.kept unicode).get (unicode.lower name) =
      (fields.find unicode name).bind fun t => t.prune unicode := by
  induction fields using Fields.names.induct with
  | case1 => rfl
  | case2 n type trailers rest ih =>
    rw [Fields.names, nodup_cons] at h
    have hrest := ih h.2
    rw [Fields.find, Fields.kept]
    split_ifs with heq
    · have hmissing : (rest.kept unicode).get (unicode.lower name) = none := by
        rw [Dict.get_eq_none_iff, ← heq]
        exact fun hmem => h.1 ((Fields.kept_names rest).subset hmem)
      cases hprune : type.prune unicode with
      | none => simp [hmissing, hprune]
      | some tree => simp [Dict.get, heq, hprune]
    · cases hprune : type.prune unicode with
      | none => exact hrest
      | some tree => rw [Dict.get, if_neg (Ne.symm heq), hrest]

theorem storedField_find (fields : Fields) (name : Text) (value : Value) :
    fields.storedField unicode name value =
      ((fields.find unicode name).map fun t => t.stored unicode value).getD value := by
  induction fields using Fields.names.induct with
  | case1 => rfl
  | case2 n type trailers rest ih =>
    rw [Fields.storedField, Fields.find]
    split_ifs
    · rfl
    · exact ih

mutual

theorem Ty.stored_pruned :
    ∀ (t : Ty), t.prune unicode = none → ∀ value, t.stored unicode value = value
  | .variant, h, _ => by cases h
  | .scalar _ _ _, _, value => by cases value <;> rfl
  | .array element, h, value => by
    rw [Ty.prune, Option.map_eq_none_iff] at h
    have hsame : element.stored unicode = id := funext (element.stored_pruned h)
    cases value with
    | array elements => rw [Ty.stored, hsame, map_id]
    | _ => rfl
  | .map _ type, h, value => by
    rw [Ty.prune, Option.map_eq_none_iff] at h
    have hsame : type.stored unicode = id := funext (type.stored_pruned h)
    cases value with
    | map entries => rw [Ty.stored, hsame]; simp
    | _ => rfl
  | .struct fields, h, value => by
    rw [Ty.prune, structOf] at h
    have hkept : fields.kept unicode = [] := by
      split_ifs at h with hempty
      exact isEmpty_iff.mp hempty
    have hsame := fields.storedField_pruned hkept
    cases value with
    | struct values => rw [Ty.stored]; simp [hsame]
    | _ => rfl

theorem Fields.storedField_pruned : ∀ (fields : Fields), fields.kept unicode = [] →
    ∀ name value, fields.storedField unicode name value = value
  | .nil, _, _, _ => rfl
  | .cons n type _ rest, h, name, value => by
    rw [Fields.kept] at h
    cases hprune : type.prune unicode with
    | some tree => rw [hprune] at h; cases h
    | none =>
      rw [hprune] at h
      rw [Fields.storedField]
      split_ifs
      · exact type.stored_pruned hprune value
      · exact rest.storedField_pruned h name value

end

theorem Fields.find_valid (h : fields.Valid unicode) {name : Text} {t : Ty}
    (hfind : fields.find unicode name = some t) : t.Valid unicode := by
  induction fields using Fields.names.induct with
  | case1 => cases hfind
  | case2 n type trailers rest ih =>
    rw [Fields.find] at hfind
    split_ifs at hfind
    · cases hfind
      exact h.1
    · exact ih h.2 hfind

theorem mapM_some {α β : Type} {f : α → Option β} {g : α → β} {xs : List α}
    (h : ∀ x ∈ xs, f x = some (g x)) : xs.mapM f = some (xs.map g) := by
  induction xs with
  | nil => rfl
  | cons x xs ih =>
    obtain ⟨hx, hxs⟩ := forall_mem_cons.mp h
    rw [mapM_cons, hx, ih hxs]
    rfl

theorem parameterName_ne (depth : ℕ) :
    unicode.lower (parameterName 'v' depth) ≠ unicode.lower (parameterName 'k' depth) := by
  have hascii : ∀ kind : Char, kind.toNat < 128 →
      ∀ c ∈ parameterName kind depth, c.toNat < 128 := by
    intro kind hkind
    rw [parameterName, forall_mem_cons, forall_mem_cons, forall_mem_cons]
    refine ⟨by decide, by decide, hkind, ?_⟩
    intro c hc
    have hdigit := TypeText.digit_plain (TypeText.digits_ascii depth c hc)
    omega
  rw [lower_ascii unicode (hascii 'v' (by decide)), lower_ascii unicode (hascii 'k' (by decide))]
  intro heq
  have hkind : Char.toLower 'v' = Char.toLower 'k' := by
    simp only [parameterName, map_cons, List.cons.injEq] at heq
    exact heq.2.2.1
  revert hkind
  decide

theorem eval_parameter (kind : Char) (depth : ℕ) (v : Value) (scope : Scope) :
    (Sql.parameter kind depth).eval unicode
      ((unicode.lower (parameterName kind depth), v) :: scope) = some v := by
  rw [Sql.eval, Dict.get, if_pos rfl]

theorem eval_value_parameter (depth : ℕ) (k v : Value) (scope : Scope) :
    (Sql.parameter 'v' depth).eval unicode
      ((unicode.lower (parameterName 'k' depth), k) ::
        (unicode.lower (parameterName 'v' depth), v) :: scope) = some v := by
  rw [Sql.eval, Dict.get, if_neg (parameterName_ne depth), Dict.get, if_pos rfl]

variable {values : List (Text × Value)}

theorem find_named (h : (values.map fun e => unicode.lower e.1).Nodup) {e : Text × Value}
    (he : e ∈ values) : (values.find? fun d => unicode.lower d.1 = unicode.lower e.1) = some e := by
  induction values with
  | nil => cases he
  | cons d values ih =>
    rw [map_cons, nodup_cons] at h
    obtain rfl | he := mem_cons.mp he
    · exact List.find?_cons_of_pos (by simp)
    · have hne : unicode.lower d.1 ≠ unicode.lower e.1 :=
        fun heq => h.1 (heq ▸ mem_map_of_mem he)
      rw [List.find?_cons_of_neg (by simp [hne])]
      exact ih h.2 he

variable {scope : Scope}

theorem eval_field (hexpr : expr.eval unicode scope = some (.struct values))
    (hnames : (values.map fun e => unicode.lower e.1).Nodup) {e : Text × Value} (he : e ∈ values) :
    (Sql.field expr e.1).eval unicode scope = some e.2 := by
  rw [Sql.eval, hexpr]
  dsimp only
  rw [find_named hnames he]
  rfl

theorem StagedFields.holds_names {fields : StagedFields} (h : fields.Holds values) :
    (values.map fun e => unicode.lower e.1) = fields.names unicode := by
  induction values generalizing fields with
  | nil =>
    cases fields with
    | nil => rfl
    | cons name type rest => exact h.elim
  | cons e values ih =>
    cases fields with
    | nil => exact h.elim
    | cons name type rest =>
      obtain ⟨hname, -, hrest⟩ := h
      rw [map_cons, ih hrest, hname]
      rfl

theorem variantSql_none (expr : Sql) (staged : Staged) (depth : ℕ) :
    variantSql unicode expr staged none depth = expr := by
  cases staged <;> rfl

theorem eval_transform {element : Ty} {large : Bool} {item : Staged} {sub : Sql} {value : Value}
    (hsame : sub.text = (Sql.parameter 'e' depth).text → sub = .parameter 'e' depth)
    (hsub : ∀ v, item.Holds v →
      sub.eval unicode ((unicode.lower (parameterName 'e' depth), v) :: scope) =
        some (element.stored unicode v)) (hholds : (Staged.list large item).Holds value)
    (hexpr : expr.eval unicode scope = some value) :
    (if sub.text = (Sql.parameter 'e' depth).text then expr
      else .transform expr depth sub).eval unicode scope =
        some ((Ty.array element).stored unicode value) := by
  cases value with
  | null => split_ifs <;> simp [Sql.eval, hexpr, Ty.stored]
  | array elements =>
    split_ifs with htext
    · have hall : elements.map (element.stored unicode) = elements.map id := by
        apply map_congr_left
        intro v hv
        have hvalue := hsub v (hholds v hv)
        rw [hsame htext, eval_parameter] at hvalue
        exact (Option.some.inj hvalue).symm
      rw [hexpr, Ty.stored, hall, map_id]
    · rw [Sql.eval, hexpr]
      dsimp only
      rw [mapM_some fun v hv => hsub v (hholds v hv), Ty.stored]
      rfl
  | _ => exact hholds.elim

theorem eval_transformValues {key : Ty} {type : Ty} {keys item : Staged} {sub : Sql} {value : Value}
    (hsame : sub.text = (Sql.parameter 'v' depth).text → sub = .parameter 'v' depth)
    (hsub : ∀ k v, item.Holds v →
      sub.eval unicode ((unicode.lower (parameterName 'k' depth), k) ::
        (unicode.lower (parameterName 'v' depth), v) :: scope) = some (type.stored unicode v))
    (hholds : (Staged.map keys item).Holds value) (hexpr : expr.eval unicode scope = some value) :
    (if sub.text = (Sql.parameter 'v' depth).text then expr
      else .transformValues expr depth sub).eval unicode scope =
        some ((Ty.map key type).stored unicode value) := by
  cases value with
  | null => split_ifs <;> simp [Sql.eval, hexpr, Ty.stored]
  | map entries =>
    split_ifs with htext
    · have hall : entries.map (fun e => (e.1, type.stored unicode e.2)) = entries.map id := by
        apply map_congr_left
        intro e he
        have hvalue := hsub e.1 e.2 (hholds e he).2
        rw [hsame htext, eval_value_parameter] at hvalue
        rw [← Option.some.inj hvalue]
        rfl
      rw [hexpr, Ty.stored, hall, map_id]
    · rw [Sql.eval, hexpr]
      dsimp only
      rw [mapM_some (g := fun e => (e.1, type.stored unicode e.2)), Ty.stored]
      · rfl
      · intro e he
        rw [hsub e.1 e.2 (hholds e he).2]
        rfl
  | _ => exact hholds.elim

mutual

/-- The expression maps a value to the same value with the text at its VARIANTs parsed. -/
theorem Staged.eval_variantSql (staged : Staged) {t : Ty} (hvalid : t.Valid unicode)
    (hshape : staged.Shaped unicode t) {expr : Sql} {scope : Scope} {value : Value}
    (hholds : staged.Holds value) (hexpr : expr.eval unicode scope = some value) (depth : ℕ) :
    (variantSql unicode expr staged (t.prune unicode) depth).eval unicode scope =
      some (t.stored unicode value) := by
  cases hprune : t.prune unicode with
  | none => rw [variantSql_none, hexpr, t.stored_pruned hprune]
  | some tree =>
    cases t with
    | scalar name args words => cases hprune
    | variant =>
      cases hprune
      cases staged with
      | string large =>
        rw [variantSql, Sql.eval, hexpr]
        cases value with
        | null => rfl
        | text json => rfl
        | _ => exact hholds.elim
      | _ =>
        rw [variantSql, hexpr]
        · cases value with
          | text json => exact hholds.elim
          | _ => rfl
        all_goals nofun
    | array element =>
      cases staged with
      | list large item =>
        rw [Ty.prune] at hprune
        obtain ⟨inner, hinner, rfl⟩ := Option.map_eq_some_iff.mp hprune
        have helement : element.Valid unicode := hvalid
        have hitem : item.Shaped unicode element := hshape
        have hsub : ∀ v, item.Holds v →
            (variantSql unicode (.parameter 'e' depth) item (some inner) (depth + 1)).eval
              unicode ((unicode.lower (parameterName 'e' depth), v) :: scope) =
                some (element.stored unicode v) := by
          intro v hv
          rw [← hinner]
          exact item.eval_variantSql helement hitem hv (eval_parameter 'e' depth v scope) _
        rw [variantSql]
        exact eval_transform eq_of_text hsub hholds hexpr
      | _ => exact hshape.elim
    | map key type =>
      cases staged with
      | map _ item =>
        rw [Ty.prune] at hprune
        obtain ⟨inner, hinner, rfl⟩ := Option.map_eq_some_iff.mp hprune
        have hsub : ∀ k v, item.Holds v →
            (variantSql unicode (.parameter 'v' depth) item (some inner) (depth + 1)).eval
              unicode ((unicode.lower (parameterName 'k' depth), k) ::
                (unicode.lower (parameterName 'v' depth), v) :: scope) =
                  some (type.stored unicode v) := by
          intro k v hv
          rw [← hinner]
          exact item.eval_variantSql hvalid.2.2 hshape hv
            (eval_value_parameter depth k v scope) _
        rw [variantSql]
        exact eval_transformValues eq_of_text hsub hholds hexpr
      | _ => exact hshape.elim
    | struct types =>
      cases staged with
      | struct fields =>
        obtain ⟨hnames, hfields⟩ := hshape
        rw [Ty.prune, structOf] at hprune
        split_ifs at hprune
        cases hprune
        rw [variantSql]
        cases value with
        | null => split_ifs <;> simp [Sql.eval, hexpr, Ty.stored]
        | struct values =>
          rw [← fields.holds_names hholds] at hnames
          have hfield : ∀ e ∈ values, (Sql.field expr e.1).eval unicode scope = some e.2 :=
            fun e he => eval_field hexpr hnames he
          have heval := fields.eval_rebuild hvalid.1 hvalid.2 hfields hholds hfield depth
          split_ifs with hchanged
          · rw [Sql.eval, hexpr]
            dsimp only
            rw [Sql.eval, heval.1, Ty.stored]
            rfl
          · rw [hexpr, Ty.stored, heval.2 (by simpa using hchanged)]
        | _ => exact hholds.elim
      | _ => exact hshape.elim

theorem StagedFields.eval_rebuild (fields : StagedFields) {types : Fields}
    (hnames : (types.names unicode).Nodup) (hvalid : types.Valid unicode)
    (hshape : fields.Shaped unicode types) {values : List (Text × Value)}
    (hholds : fields.Holds values) {expr : Sql} {scope : Scope}
    (hfield : ∀ e ∈ values, (Sql.field expr e.1).eval unicode scope = some e.2) (depth : ℕ) :
    (rebuild unicode expr fields (types.kept unicode) depth).1.eval unicode scope =
        some (values.map fun e => (e.1, types.storedField unicode e.1 e.2)) ∧
      ((rebuild unicode expr fields (types.kept unicode) depth).2 = false →
        (values.map fun e => (e.1, types.storedField unicode e.1 e.2)) = values) := by
  cases fields with
  | nil =>
    cases values with
    | nil => exact ⟨rfl, fun _ => rfl⟩
    | cons e values => exact hholds.elim
  | cons name type rest =>
    cases values with
    | nil => exact hholds.elim
    | cons e values =>
      obtain ⟨n, v⟩ := e
      obtain ⟨rfl, hv, hvalues⟩ := hholds
      obtain ⟨⟨t, hfind, htype⟩, hrest⟩ := hshape
      obtain ⟨hhead, htail⟩ := forall_mem_cons.mp hfield
      have hmore := rest.eval_rebuild hnames hvalid hrest hvalues htail depth
      have hsub := type.eval_variantSql (types.find_valid hvalid hfind) htype hv hhead depth
      have hstored : types.storedField unicode n v = t.stored unicode v := by
        rw [storedField_find, hfind]
        rfl
      have htree : (types.kept unicode).get (unicode.lower n) = t.prune unicode := by
        rw [kept_get hnames, hfind]
        rfl
      constructor
      · rw [rebuild]
        dsimp only
        rw [htree, Parts.eval, hsub, hmore.1, map_cons, hstored]
        rfl
      · intro hsame
        rw [rebuild, htree] at hsame
        simp only [Bool.or_eq_false_iff, decide_eq_false_iff_not, not_not] at hsame
        rw [eq_of_text hsame.1] at hsub
        have hvalue : v = t.stored unicode v := Option.some.inj (hhead.symm.trans hsub)
        rw [map_cons, hmore.2 hsame.2, hstored, ← hvalue]

end

/-- The reader finds exactly the VARIANTs of the type, and for every staged type of the same shape
the expression built from what it finds parses exactly those. -/
def Found (unicode : Unicode) (t : Ty) : Prop :=
  variantTree unicode t.text = .ok (t.prune unicode) ∧
    ∀ staged : Staged, staged.Shaped unicode t → ∀ (column : Text) (scope : Scope) (value : Value),
      staged.Holds value → scope.get (unicode.lower column) = some value →
        ∀ tree, variantTree unicode t.text = .ok tree →
          (variantSql unicode (.column column) staged tree 0).eval unicode scope =
            some (t.stored unicode value)

/-- Every VARIANT of a type is found and parsed where no map has words behind its key. -/
theorem found_of_keysPlain {t : Ty} (hvalid : t.Valid unicode) (hkeys : t.KeysPlain) :
    Found unicode t := by
  have htree := variantTree_text hvalid hkeys
  refine ⟨htree, ?_⟩
  intro staged hshape column scope value hholds hcolumn tree hfound
  rw [htree] at hfound
  cases hfound
  have hexpr : (Sql.column column).eval unicode scope = some value := hcolumn
  exact staged.eval_variantSql hvalid hshape hholds hexpr 0

end

def stringName : ScalarName := ⟨⟨['s', 't', 'r', 'i', 'n', 'g'], by decide, by decide⟩, by decide⟩

/-- `struct<v:variant COMMENT 'a, b>',m:map<string,array<variant>>>` -/
theorem found_nested : Found TypeText.asciiOnly
    (.struct (.cons (.bare ⟨['v'], by decide, by decide⟩) .variant
      [.comment '\'' (.inl rfl) [.plain 'a' (by decide), .plain ',' (by decide),
        .plain '>' (by decide)]]
      (.cons (.quoted ['m', ' ']) (.map (.scalar stringName none []) (.array .variant)) []
        .nil))) :=
  found_of_keysPlain ⟨by decide, trivial, ⟨rfl, trivial, trivial⟩, trivial⟩
    ⟨trivial, ⟨rfl, trivial, trivial⟩, trivial⟩

/-- `map<string collate utf8_lcase,variant>` -/
def collatedKey : Ty :=
  .map (.scalar stringName none
    [⟨['c', 'o', 'l', 'l', 'a', 't', 'e'], by decide, by decide⟩,
      ⟨['u', 't', 'f', '8', '_', 'l', 'c', 'a', 's', 'e'], by decide, by decide⟩]) .variant

/-- The VARIANT under a key with a collation is not found. -/
theorem collatedKey_lost : collatedKey.Valid TypeText.asciiOnly ∧
    ¬ Found TypeText.asciiOnly collatedKey := by
  refine ⟨⟨rfl, trivial, trivial⟩, ?_⟩
  intro hfound
  have hlost : variantTree TypeText.asciiOnly collatedKey.text = .ok none := by rfl
  have htree := hlost.symm.trans hfound.1
  cases htree

end DeltaSwamp.Variant
