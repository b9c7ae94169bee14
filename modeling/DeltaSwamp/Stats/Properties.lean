import DeltaSwamp.Dict
import DeltaSwamp.Metadata.Merge

/-!
# Writer properties without inexact statistics

`_too_precise`, `_nested_too_precise`, `_holds_float`, `_nan_free_columns`, `_exact_stats`,
`_data_delta_schema` and `DeltaRsEngine._stats_schema` of `engine/deltars.py`. A schema is the
list of its fields.
-/

namespace DeltaSwamp.Stats

open List

open Metadata (DataType Field ArrowType ArrowField Python decimalOf arrowToFields)

inductive Level where
  | none | chunk | page
  deriving DecidableEq

structure ColumnProperties where
  statisticsEnabled : Option Level
  deriving DecidableEq

structure WriterProperties where
  defaultColumnProperties : Option ColumnProperties
  columnProperties : Option (Dict String ColumnProperties)
  deriving DecidableEq

/-- `WriterProperties()`. -/
def WriterProperties.new : WriterProperties := ⟨none, none⟩

/-- `without_stats`: the other properties a column has are kept. -/
def withoutStats (existing : Option ColumnProperties) : ColumnProperties :=
  { existing.getD ⟨none⟩ with statisticsEnabled := some .none }

@[simp] theorem withoutStats_statisticsEnabled (existing : Option ColumnProperties) :
    (withoutStats existing).statisticsEnabled = some .none := rfl

section
variable (py : Python)

/-- `_DOUBLE_EXACT_DIGITS`. -/
def doubleExactDigits : Nat := 15

def tooPrecise : DataType → Bool
  | .primitive name => (decimalOf py name).any fun digits => doubleExactDigits < digits.1
  | _ => false

mutual

def nestedTooPrecise : DataType → Bool
  | .struct fields => anyTooPrecise fields
  | _ => false

/-- A field that is such a decimal or holds one. -/
def anyTooPrecise : List Field → Bool
  | [] => false
  | ⟨_, type, _, _⟩ :: fs => tooPrecise py type || nestedTooPrecise type || anyTooPrecise fs

end

end

def isFloat : DataType → Bool
  | .primitive name => name = "float" || name = "double"
  | _ => false

def isText : DataType → Bool
  | .primitive _ => true
  | _ => false

mutual

def holdsFloat : DataType → Bool
  | .struct fields => anyFloat fields
  | .primitive name => name = "float" || name = "double"
  | _ => false

def anyFloat : List Field → Bool
  | [] => false
  | ⟨_, type, _, _⟩ :: fs => holdsFloat type || anyFloat fs

end

/-- What a write is given. -/
structure Data (A : Type) where
  fields : List ArrowField
  /-- The schema is pyarrow's, and pyarrow is installed. -/
  pyarrow : Bool
  /-- A pyarrow table or batch, not a stream. -/
  inMemory : Bool
  /-- A column's values by the names down to it, whatever the structs around them hold. -/
  cells : List String → List A

section
variable {A : Type}

/-- `_data_delta_schema`: none where a type has no Delta equivalent. -/
def Data.deltaSchema (data : Data A) : Option (List Field) :=
  if data.pyarrow then (arrowToFields data.fields).toOption else none

mutual

/-- `floats`. -/
def floats : ArrowType → Bool
  | .float32 | .float64 => true
  | .other name => name = "halffloat"
  | .struct fields => floatsAny fields
  | _ => false

def floatsAny : List ArrowField → Bool
  | [] => false
  | ⟨_, type, _, _⟩ :: fs => floats type || floatsAny fs

end

section
variable (isNan : A → Bool) (cells : List String → List A)

mutual

/-- `has_nan`, of the column at a path. -/
def hasNan (path : List String) : ArrowType → Bool
  | .float32 | .float64 => (cells path).any isNan
  | .other name => name = "halffloat" && (cells path).any isNan
  | .struct fields => hasNanAny path fields
  | _ => false

def hasNanAny (path : List String) : List ArrowField → Bool
  | [] => false
  | ⟨name, type, _, _⟩ :: fs => hasNan (path ++ [name]) type || hasNanAny path fs

end

end

section
variable (py : Python) (isNan : A → Bool)

def nanFreeColumns (data : Data A) : List String :=
  if data.pyarrow && data.inMemory then
    (data.fields.filter fun f => floats f.type && !hasNan isNan data.cells [f.name] f.type).map
      fun f => py.lower f.name
  else []

/-- A field whose statistics may be inexact. -/
def suspect (nanFree : List String) (f : Field) : Bool :=
  tooPrecise py f.type || nestedTooPrecise py f.type ||
    (holdsFloat f.type && !(nanFree.contains (py.lower f.name)))

/-- `_stats_schema`; `existing` is the table's schema where it can be read. -/
def statsSchema (existing : Option (List Field)) (data : Data A) : Option (List Field) :=
  match data.deltaSchema with
  | none => none
  | some incoming =>
    if !(incoming.any (suspect py (nanFreeColumns py isNan data))) then none
    else
      match existing with
      | none => some incoming
      | some existing =>
        let known := existing.map fun f => py.lower f.name
        some (existing ++ incoming.filter fun f => !(known.contains (py.lower f.name)))

end

end

/-- `physical`. -/
def physical (f : Field) : String :=
  match f.physical with
  | some (.str s) => if s = "" then f.name else s
  | _ => f.name

section
variable (py : Python)

def nanSuspect (nanFree : List String) (f : Field) : Bool := !(nanFree.contains (py.lower f.name))

/-- `top`. -/
def inexactColumns (fields : List Field) (nanFree : List String) : List String :=
  (fields.filter fun f =>
    tooPrecise py f.type || (isFloat f.type && nanSuspect py nanFree f)).map physical

/-- `nested`. -/
def inexactNested (fields : List Field) (nanFree : List String) : Bool :=
  fields.any fun f => nestedTooPrecise py f.type ||
    (!isText f.type && holdsFloat f.type && nanSuspect py nanFree f)

/-- The top-level columns known to be safe, kept as the default is turned off. -/
def keepSafe (fields : List Field) (top : List String) (columns : Dict String ColumnProperties) :
    Dict String ColumnProperties :=
  fields.foldl (fun columns f =>
    if isText f.type && !(top.contains (physical f)) && (columns.get (physical f)).isNone then
      columns.set (physical f) ⟨some .page⟩
    else columns) columns

def turnOff (top : List String) (columns : Dict String ColumnProperties) :
    Dict String ColumnProperties :=
  top.foldl (fun columns name => columns.set name (withoutStats (columns.get name))) columns

/-- `_exact_stats`, on what `_writer_properties` makes of the caller's properties. -/
def exactStats (given : Option WriterProperties) (schema : Option (List Field))
    (nanFree : List String) : Option WriterProperties :=
  let fields := schema.getD []
  let top := inexactColumns py fields nanFree
  let nested := inexactNested py fields nanFree
  if top = [] ∧ nested = false then given
  else
    let out := given.getD .new
    let columns := out.columnProperties.getD []
    some {
      defaultColumnProperties :=
        if nested then some (withoutStats out.defaultColumnProperties)
        else out.defaultColumnProperties
      columnProperties :=
        some (turnOff top (if nested then keepSafe fields top columns else columns)) }

end

open Metadata (DataType Field Python)

/-- The level for a column. A nested one cannot be named, so it takes the default. -/
def WriterProperties.level (properties : WriterProperties) (path : List String) : Option Level :=
  let default := properties.defaultColumnProperties.bind ColumnProperties.statisticsEnabled
  match path with
  | [name] =>
    (((properties.columnProperties.getD []).get name).bind ColumnProperties.statisticsEnabled).or
      default
  | _ => default

/-- Whether statistics are written for a column: they are where nothing says otherwise. -/
def enabled (properties : Option WriterProperties) (path : List String) : Bool :=
  (properties.bind (·.level path)) ≠ some .none

section
variable (py : Python) (given : Option WriterProperties) (examined : Field → Prop)
  (nanFree : List String)

/-- The column is itself a field examined whose statistics may be inexact. -/
def Named (path : List String) : Prop :=
  ∃ f, examined f ∧ isText f.type = true ∧ suspect py nanFree f = true ∧ path = [physical f]

/-- Some struct examined holds such a field. -/
def Nested : Prop := ∃ f, examined f ∧ isText f.type = false ∧ suspect py nanFree f = true

def givenColumn (given : Option WriterProperties) (name : String) : Option ColumnProperties :=
  ((given.bind WriterProperties.columnProperties).getD []).get name

/-- The column keeps its statistics though the default is turned off: by the caller's own
properties or, without any, as one of the fields examined. -/
def Spared (path : List String) : Prop :=
  ∃ name, path = [name] ∧
    match givenColumn given name with
    | some column => column.statisticsEnabled ≠ none ∧ column.statisticsEnabled ≠ some .none
    | none => ∃ f, examined f ∧ isText f.type = true ∧ physical f = name

/-- The fields examined leave the column its statistics. -/
def LeftOn (path : List String) : Prop :=
  ¬Named py examined nanFree path ∧
    (Nested py examined nanFree → Spared given examined path) ∧
    (¬Nested py examined nanFree → enabled given path = true)

end

section
variable {py : Python} {given : Option WriterProperties} {fields : List Field}
  {nanFree : List String} {columns : Dict String ColumnProperties} {top : List String}

theorem suspect_text {f : Field} (htext : isText f.type = true) :
    suspect py nanFree f =
      (tooPrecise py f.type || (isFloat f.type && nanSuspect py nanFree f)) := by
  obtain ⟨name, type, nullable, metadata⟩ := f
  cases type with
  | primitive kind => simp [suspect, nestedTooPrecise, holdsFloat, isFloat, nanSuspect]
  | struct fields => cases htext
  | array element b => cases htext
  | map key value b => cases htext

theorem suspect_nested {f : Field} (htext : isText f.type = false) :
    suspect py nanFree f = (nestedTooPrecise py f.type ||
      (!isText f.type && holdsFloat f.type && nanSuspect py nanFree f)) := by
  obtain ⟨name, type, nullable, metadata⟩ := f
  cases type with
  | primitive kind => cases htext
  | struct fields => simp [suspect, tooPrecise, isText, nanSuspect]
  | array element b => simp [suspect, tooPrecise, isText, nanSuspect]
  | map key value b => simp [suspect, tooPrecise, isText, nanSuspect]

variable {t : DataType}

theorem tooPrecise_text (h : tooPrecise py t = true) : isText t = true := by
  cases t with
  | primitive name => rfl
  | struct fields => cases h
  | array element b => cases h
  | map key value b => cases h

theorem isFloat_text (h : isFloat t = true) : isText t = true := by
  cases t with
  | primitive name => rfl
  | struct fields => cases h
  | array element b => cases h
  | map key value b => cases h

theorem nestedTooPrecise_text (h : nestedTooPrecise py t = true) : isText t = false := by
  cases t with
  | primitive name => cases h
  | struct fields => rfl
  | array element b => rfl
  | map key value b => rfl

theorem mem_inexactColumns {name : String} :
    name ∈ inexactColumns py fields nanFree ↔ Named py (· ∈ fields) nanFree [name] := by
  rw [inexactColumns, mem_map]
  constructor
  · rintro ⟨f, hf, rfl⟩
    obtain ⟨hmem, hsuspect⟩ := mem_filter.mp hf
    have htext : isText f.type = true := by
      rcases Bool.or_eq_true_iff.mp hsuspect with hprecise | hfloat
      · exact tooPrecise_text hprecise
      · exact isFloat_text (Bool.and_eq_true_iff.mp hfloat).1
    exact ⟨f, hmem, htext, (suspect_text htext).trans hsuspect, rfl⟩
  · rintro ⟨f, hmem, htext, hsuspect, heq⟩
    refine ⟨f, mem_filter.mpr ⟨hmem, ?_⟩, (singleton_inj.mp heq).symm⟩
    exact (suspect_text htext).symm.trans hsuspect

theorem inexactNested_iff :
    inexactNested py fields nanFree = true ↔ Nested py (· ∈ fields) nanFree := by
  rw [inexactNested, any_eq_true]
  constructor
  · rintro ⟨f, hmem, hsuspect⟩
    have htext : isText f.type = false := by
      rcases Bool.or_eq_true_iff.mp hsuspect with hprecise | hfloat
      · exact nestedTooPrecise_text hprecise
      · simpa using (Bool.and_eq_true_iff.mp (Bool.and_eq_true_iff.mp hfloat).1).1
    exact ⟨f, hmem, htext, (suspect_nested htext).trans hsuspect⟩
  · rintro ⟨f, hmem, htext, hsuspect⟩
    exact ⟨f, hmem, (suspect_nested htext).symm.trans hsuspect⟩

theorem turnOff_get (name : String) :
    (turnOff top columns).get name =
      if name ∈ top then some (withoutStats (columns.get name)) else columns.get name := by
  induction top generalizing columns with
  | nil => rfl
  | cons t ts ih =>
    rw [turnOff, foldl_cons, ← turnOff, ih, Dict.get_set]
    by_cases hname : name = t
    · subst hname
      by_cases hts : name ∈ ts <;> simp [hts, withoutStats]
    · by_cases hts : name ∈ ts <;> simp [hts, hname]

theorem keepSafe_get {name : String} (hname : name ∉ top) :
    (keepSafe fields top columns).get name =
      match columns.get name with
      | some column => some column
      | none =>
        if fields.any fun f => isText f.type && physical f = name then some ⟨some .page⟩
        else none := by
  induction fields generalizing columns with
  | nil =>
    rw [keepSafe, foldl_nil]
    cases columns.get name <;> rfl
  | cons f fs ih =>
    rw [keepSafe, foldl_cons, ← keepSafe, ih]
    by_cases heq : physical f = name
    · subst heq
      cases hcolumn : columns.get (physical f) <;> cases htext : isText f.type <;>
        simp [hcolumn, htext, hname, Dict.get_set]
    · have hne : name ≠ physical f := fun h => heq h.symm
      have hget : ∀ (b : Bool) (column : ColumnProperties),
          (if b then columns.set (physical f) column else columns).get name =
            columns.get name := by
        intro b column
        cases b <;> simp [Dict.get_set, hne]
      simp only [hget]
      simp [heq]

theorem level_nested {properties : WriterProperties} {path : List String}
    (hpath : ∀ name, path ≠ [name]) : properties.level path =
      properties.defaultColumnProperties.bind ColumnProperties.statisticsEnabled := by
  match path with
  | [] => rfl
  | [name] => exact absurd rfl (hpath name)
  | _ :: _ :: _ => rfl

theorem enabled_new (path : List String) : enabled (some .new) path = enabled none path := by
  match path with
  | [] => rfl
  | [name] => rfl
  | _ :: _ :: _ => rfl

theorem leftOn_getD (path : List String) :
    LeftOn py (some (given.getD .new)) (· ∈ fields) nanFree path ↔
      LeftOn py given (· ∈ fields) nanFree path := by
  cases given with
  | none => rw [LeftOn, LeftOn, Option.getD_none, enabled_new]; rfl
  | some properties => rfl

theorem enabled_exactStats_untouched (htop : inexactColumns py fields nanFree = [])
    (hnested : ¬Nested py (· ∈ fields) nanFree) (path : List String) :
    enabled given path = true ↔ LeftOn py given (· ∈ fields) nanFree path := by
  have hnamed : ¬Named py (· ∈ fields) nanFree path := by
    intro h
    obtain ⟨f, hmem, htext, hsuspect, rfl⟩ := h
    have hmem' := mem_inexactColumns.mpr ⟨f, hmem, htext, hsuspect, rfl⟩
    rw [htop] at hmem'
    cases hmem'
  exact ⟨fun h => ⟨hnamed, fun hn => absurd hn hnested, fun _ => h⟩, fun h => h.2.2 hnested⟩

theorem enabled_exactStats_flat (out : WriterProperties)
    (hnested : ¬Nested py (· ∈ fields) nanFree) (path : List String) :
    enabled (some ⟨out.defaultColumnProperties,
      some (turnOff (inexactColumns py fields nanFree) (out.columnProperties.getD []))⟩)
        path = true ↔
      LeftOn py (some out) (· ∈ fields) nanFree path := by
  rw [LeftOn, and_iff_right (fun hn => absurd hn hnested : Nested py (· ∈ fields) nanFree → _),
    forall_prop_of_true hnested]
  by_cases hpath : ∃ name, path = [name]
  · obtain ⟨name, rfl⟩ := hpath
    rw [← mem_inexactColumns]
    by_cases hname : name ∈ inexactColumns py fields nanFree <;>
      simp [enabled, WriterProperties.level, turnOff_get, hname]
  · have hnot : ∀ name, path ≠ [name] := fun name h => hpath ⟨name, h⟩
    have hnamed : ¬Named py (· ∈ fields) nanFree path := by
      rintro ⟨f, -, -, -, h⟩
      exact hnot _ h
    simp [enabled, level_nested hnot, hnamed]

theorem spared_singleton {name : String} : Spared given (· ∈ fields) [name] ↔
    match givenColumn given name with
    | some column => column.statisticsEnabled ≠ none ∧ column.statisticsEnabled ≠ some .none
    | none => ∃ f ∈ fields, isText f.type = true ∧ physical f = name := by
  constructor
  · rintro ⟨n, hn, h⟩
    cases hn
    exact h
  · exact fun h => ⟨name, rfl, h⟩

theorem enabled_exactStats_nested (out : WriterProperties)
    (hnested : Nested py (· ∈ fields) nanFree) (path : List String) :
    enabled (some ⟨some (withoutStats out.defaultColumnProperties),
      some (turnOff (inexactColumns py fields nanFree)
        (keepSafe fields (inexactColumns py fields nanFree) (out.columnProperties.getD [])))⟩)
          path = true ↔
      LeftOn py (some out) (· ∈ fields) nanFree path := by
  rw [LeftOn, forall_prop_of_true hnested,
    and_iff_left (fun hn => absurd hnested hn : ¬Nested py (· ∈ fields) nanFree → _)]
  by_cases hpath : ∃ name, path = [name]
  · obtain ⟨name, rfl⟩ := hpath
    rw [← mem_inexactColumns, spared_singleton, givenColumn, Option.bind_some]
    by_cases hname : name ∈ inexactColumns py fields nanFree
    · simp [enabled, WriterProperties.level, turnOff_get, hname]
    · cases hcolumn : (out.columnProperties.getD []).get name with
      | some column =>
        obtain ⟨level⟩ := column
        cases level <;>
          simp [enabled, WriterProperties.level, turnOff_get, keepSafe_get, hname, hcolumn]
      | none =>
        by_cases hany : ∃ f ∈ fields, isText f.type = true ∧ physical f = name <;>
          simp [enabled, WriterProperties.level, turnOff_get, keepSafe_get, hname, hcolumn, hany]
  · have hnot : ∀ name, path ≠ [name] := fun name h => hpath ⟨name, h⟩
    have hnamed : ¬Named py (· ∈ fields) nanFree path := by
      rintro ⟨f, -, -, -, h⟩
      exact hnot _ h
    have hspared : ¬Spared (some out) (· ∈ fields) path := by
      rintro ⟨name, h, -⟩
      exact hnot name h
    simp [enabled, level_nested hnot, hspared, hnamed]

/-- The statistics that are on under the properties returned are those the fields leave on. -/
theorem enabled_exactStats (schema : Option (List Field)) (path : List String) :
    enabled (exactStats py given schema nanFree) path = true ↔
      LeftOn py given (· ∈ schema.getD []) nanFree path := by
  by_cases hnested : Nested py (· ∈ schema.getD []) nanFree
  · have hon := inexactNested_iff.mpr hnested
    rw [exactStats, if_neg (fun h => absurd h.2 (by simp [hon])), ← leftOn_getD]
    simp only [hon, if_true]
    exact enabled_exactStats_nested _ hnested path
  · have hoff : inexactNested py (schema.getD []) nanFree = false := by
      rw [← Bool.not_eq_true]
      exact fun h => hnested (inexactNested_iff.mp h)
    by_cases htop : inexactColumns py (schema.getD []) nanFree = []
    · rw [exactStats, if_pos ⟨htop, hoff⟩]
      exact enabled_exactStats_untouched htop hnested path
    · rw [exactStats, if_neg (fun h => htop h.1), ← leftOn_getD]
      simp only [hoff, Bool.false_eq_true, if_false]
      exact enabled_exactStats_flat _ hnested path

end

end DeltaSwamp.Stats
