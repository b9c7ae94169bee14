import DeltaSwamp.Bounds
import DeltaSwamp.Stats.Properties

/-!
# Bounds of what a call stores

The writes, UPDATEs, DELETEs and MERGEs of `DeltaRsEngine`, the columns of the files they write
with every value they may store there, and when each bound delta-rs logs is one.
-/

namespace DeltaSwamp.Stats

open List

open Bounds (Bounded Kept)
open Metadata (DataType Field Python decimalOf)

/-- A column a file may have statistics of: no array's or map's, and none inside one. -/
structure Column where
  names : List String
  /-- The physical names. -/
  path : List String
  /-- Its primitive type. -/
  type : String

mutual

def columnsIn (names path : List String) : DataType → List Column
  | .primitive type => [⟨names, path, type⟩]
  | .struct fields => columnsOf names path fields
  | _ => []

def columnsOf (names path : List String) : List Field → List Column
  | [] => []
  | ⟨name, type, nullable, metadata⟩ :: fs =>
    columnsIn (names ++ [name]) (path ++ [physical ⟨name, type, nullable, metadata⟩]) type ++
      columnsOf names path fs

end

@[simp] theorem columnsOf_cons (names path : List String) (f : Field) (fs : List Field) :
    columnsOf names path (f :: fs) =
      columnsIn (names ++ [f.name]) (path ++ [physical f]) f.type ++ columnsOf names path fs := by
  rw [columnsOf]

theorem mem_columnsOf {names path : List String} {fields : List Field} {c : Column} :
    c ∈ columnsOf names path fields ↔
      ∃ f ∈ fields, c ∈ columnsIn (names ++ [f.name]) (path ++ [physical f]) f.type := by
  induction fields with
  | nil => simp [columnsOf]
  | cons f fs ih => simp [ih]

/-- How values are told, stored and logged: `A` are the values of Arrow data, `N` the numbers and
other ordered values a column stores, with NaN (`⊤`) above them. -/
structure Values (A N : Type) where
  /-- `pc.is_nan`. -/
  isNan : A → Bool
  /-- What delta-rs stores of a value in a column of a type: nothing of a NULL. -/
  cast : String → A → Option (WithTop N)
  /-- The number with those digits, so many of them after the point. -/
  decimal : Int → Nat → N
  /-- A DECIMAL value through a double. -/
  round : N → N
  /-- A double keeps fifteen digits. -/
  round_decimal : ∀ digits scale, digits.natAbs < 10 ^ doubleExactDigits →
    round (decimal digits scale) = decimal digits scale

section
variable {A N : Type} (py : Python) (values : Values A N)

/-- The bound logged for a number of a column. -/
def logged (type : String) (n : N) : N :=
  if (decimalOf py type).isSome then values.round n else n

/-- The values are of the column's type. -/
structure OfType (type : String) (stored : List (WithTop N)) : Prop where
  nan : ⊤ ∈ stored → isFloat (.primitive type) = true
  decimal : ∀ precision scale, decimalOf py type = some (precision, scale) →
    ∀ n : N, (n : WithTop N) ∈ stored →
      ∃ digits, digits.natAbs < 10 ^ precision ∧ n = values.decimal digits scale

structure Table where
  fields : List Field
  /-- delta-rs opens the table and gives its schema. -/
  readable : Bool

/-- `_delta_schema`. -/
def Table.deltaSchema (table : Table) : Option (List Field) :=
  if table.readable then some table.fields else none

/-- A call with the schema its files are written under and the values it may store in a column
besides those of a write's data: of rows it rewrites, of rows a MERGE inserts, or computed. -/
inductive Call (A N : Type) where
  | write (existing : Option Table) (data : Data A) (written : List Field)
      (carried : List String → List (WithTop N))
  /-- UPDATE or DELETE. -/
  | rewrite (table : Table) (carried : List String → List (WithTop N))
  | merge (table : Table) (written : List Field) (carried : List String → List (WithTop N))

namespace Call

/-- The schema handed to `_exact_stats`. -/
def schema : Call A N → Option (List Field)
  | .write existing data _ _ =>
    statsSchema py values.isNan (existing.bind Table.deltaSchema) data
  | .rewrite table _ | .merge table _ _ => table.deltaSchema

def nanFree : Call A N → List String
  | .write _ data _ _ => nanFreeColumns py values.isNan data
  | _ => []

def properties (call : Call A N) (given : Option WriterProperties) : Option WriterProperties :=
  exactStats py given (call.schema py values) (call.nanFree py values)

def columns : Call A N → List Column
  | .write _ _ written _ | .merge _ written _ => columnsOf [] [] written
  | .rewrite table _ => columnsOf [] [] table.fields

/-- Every value the call may store in a column. -/
def stored (c : Column) : Call A N → List (WithTop N)
  | .write _ data _ carried => (data.cells c.names).filterMap (values.cast c.type) ++ carried c.path
  | .rewrite _ carried | .merge _ _ carried => carried c.path

/-- In each file the call may write, every bound logged of a column is one. -/
def LogsBounds [LinearOrder N] (call : Call A N) (given : Option WriterProperties) : Prop :=
  ∀ c ∈ call.columns, enabled (call.properties py values given) c.path = true →
    ∀ file : List (WithTop N), (∀ v ∈ file, v ∈ call.stored values c) →
      Bounded (logged py values c.type) file

def Typed (call : Call A N) : Prop :=
  ∀ c ∈ call.columns, OfType py values c.type (call.stored values c)

/-- The fields the check looks at: the table's and, of a write, those its data adds to them, if
any of the data's may have inexact statistics. -/
def Examines (f : Field) : Call A N → Prop
  | .write existing data _ _ =>
    ∃ incoming, data.deltaSchema = some incoming ∧
      (∃ g ∈ incoming, suspect py (nanFreeColumns py values.isNan data) g = true) ∧
      match existing.bind Table.deltaSchema with
      | none => f ∈ incoming
      | some fields => f ∈ fields ∨
          f ∈ incoming ∧ ∀ known ∈ fields, py.lower known.name ≠ py.lower f.name
  | .rewrite table _ | .merge table _ _ => table.readable = true ∧ f ∈ table.fields

end Call

/-- A FLOAT or DOUBLE column, or a DECIMAL one of more digits than a double keeps. -/
def Risky (type : String) : Prop :=
  isFloat (.primitive type) = true ∨ tooPrecise py (.primitive type) = true

/-- The column is risky and keeps its statistics. -/
def Call.Misses (call : Call A N) (given : Option WriterProperties) (c : Column) : Prop :=
  Risky py c.type ∧
    LeftOn py given (fun f => call.Examines py values f) (call.nanFree py values) c.path

end

section
variable {A N : Type} {py : Python} {values : Values A N} {call : Call A N}
  {given : Option WriterProperties}

theorem mem_schema (f : Field) :
    f ∈ (call.schema py values).getD [] ↔ call.Examines py values f := by
  cases call with
  | write existing data written carried =>
    rw [Call.schema, Call.Examines, statsSchema]
    cases hincoming : data.deltaSchema with
    | none => simp
    | some incoming =>
      by_cases hany : (incoming.any (suspect py (nanFreeColumns py values.isNan data))) = true
      · have hexists := any_eq_true.mp hany
        cases existing.bind Table.deltaSchema with
        | none => simp [hany, hexists]
        | some fields => simp [hany, hexists]
      · refine iff_of_false (by simp [hany]) ?_
        rintro ⟨_, heq, hexists, -⟩
        cases heq
        exact hany (any_eq_true.mpr hexists)
  | rewrite table carried => cases h : table.readable <;> simp [Call.schema, Call.Examines,
      Table.deltaSchema, h]
  | merge table written carried => cases h : table.readable <;> simp [Call.schema, Call.Examines,
      Table.deltaSchema, h]

theorem enabled_properties (path : List String) :
    enabled (call.properties py values given) path = true ↔
      LeftOn py given (fun f => call.Examines py values f) (call.nanFree py values) path := by
  have hfields : (· ∈ (call.schema py values).getD []) = fun f => call.Examines py values f :=
    funext fun f => propext (mem_schema f)
  rw [Call.properties, enabled_exactStats, hfields]

theorem OfType.kept {type : String} {stored : List (WithTop N)} (h : OfType py values type stored)
    (hsafe : ¬Risky py type) : Kept (logged py values type) stored where
  alone htop := absurd (Or.inl (h.nan htop)) hsafe
  exact n hn := by
    rw [logged]
    split_ifs with hdecimal
    · obtain ⟨⟨precision, scale⟩, htype⟩ := Option.isSome_iff_exists.mp hdecimal
      obtain ⟨digits, hdigits, rfl⟩ := h.decimal precision scale htype n hn
      have hprecision : precision ≤ doubleExactDigits := by
        by_contra hlt
        exact hsafe (Or.inr (by simpa [tooPrecise, htype] using hlt))
      apply values.round_decimal
      exact hdigits.trans_le (Nat.pow_le_pow_right (by decide) hprecision)
    · rfl

/-- Every bound a call logs is one just if the columns the check misses hold no NaN beside a
number and only numbers that are logged as they are. -/
theorem Call.logsBounds_iff [LinearOrder N] (htyped : call.Typed py values) :
    call.LogsBounds py values given ↔
      ∀ c ∈ call.columns, call.Misses py values given c →
        Kept (logged py values c.type) (call.stored values c) := by
  constructor
  · intro h c hc hmissed
    exact Bounds.bounded_iff_kept.mp (h c hc (enabled_properties c.path |>.mpr hmissed.2))
  · intro h c hc hon
    apply Bounds.bounded_iff_kept.mpr
    by_cases hrisky : Risky py c.type
    · exact h c hc ⟨hrisky, enabled_properties c.path |>.mp hon⟩
    · exact (htyped c hc).kept hrisky

theorem risky_inside :
    (∀ (t : DataType) (names path : List String), ∀ c ∈ columnsIn names path t,
      (isFloat (.primitive c.type) = true → holdsFloat t = true) ∧
        (tooPrecise py (.primitive c.type) = true →
          (tooPrecise py t || nestedTooPrecise py t) = true)) ∧
    ∀ (fs : List Field) (names path : List String), ∀ c ∈ columnsOf names path fs,
      (isFloat (.primitive c.type) = true → anyFloat fs = true) ∧
        (tooPrecise py (.primitive c.type) = true → anyTooPrecise py fs = true) := by
  apply DataType.induct
  · intro name names path c hc
    rw [columnsIn, mem_singleton] at hc
    subst hc
    exact ⟨id, fun h => by rw [h, Bool.true_or]⟩
  · intro fields ih names path c hc
    rw [columnsIn] at hc
    exact ih names path c hc
  · intro element b _ names path c hc
    cases hc
  · intro key value b _ _ names path c hc
    cases hc
  · intro names path c hc
    cases hc
  · intro f fs ihtype ihfields names path c hc
    rw [anyFloat, anyTooPrecise, Bool.or_eq_true, Bool.or_eq_true]
    rw [columnsOf_cons, mem_append] at hc
    rcases hc with hin | hrest
    · have ih := ihtype _ _ c hin
      exact ⟨fun h => Or.inl (ih.1 h), fun h => Or.inl (ih.2 h)⟩
    · have ih := ihfields _ _ c hrest
      exact ⟨fun h => Or.inr (ih.1 h), fun h => Or.inr (ih.2 h)⟩

theorem path_inside :
    (∀ (t : DataType) (names path : List String), ∀ c ∈ columnsIn names path t,
      ∃ more, c.path = path ++ more ∧ (isText t = true ↔ more = [])) ∧
    ∀ (fs : List Field) (names path : List String), ∀ c ∈ columnsOf names path fs,
      ∃ more, c.path = path ++ more ∧ more ≠ [] := by
  apply DataType.induct
  · intro name names path c hc
    rw [columnsIn, mem_singleton] at hc
    subst hc
    exact ⟨[], by simp, by simp [isText]⟩
  · intro fields ih names path c hc
    rw [columnsIn] at hc
    obtain ⟨more, hpath, hmore⟩ := ih names path c hc
    exact ⟨more, hpath, by simp [isText, hmore]⟩
  · intro element b _ names path c hc
    cases hc
  · intro key value b _ _ names path c hc
    cases hc
  · intro names path c hc
    cases hc
  · intro f fs ihtype ihfields names path c hc
    rw [columnsOf_cons, mem_append] at hc
    rcases hc with hin | hrest
    · obtain ⟨more, hpath, -⟩ := ihtype _ _ c hin
      exact ⟨physical f :: more, by simp [hpath], by simp⟩
    · exact ihfields names path c hrest

/-- A column the check looks at as it is stored is missed only where the data shows it free of
NaN. -/
theorem Call.Misses.nanFree {c : Column} {f : Field} (h : call.Misses py values given c)
    (hf : call.Examines py values f) (hc : c ∈ columnsIn [f.name] [physical f] f.type) :
    py.lower f.name ∈ call.nanFree py values := by
  by_contra hnan
  have hinside := (@risky_inside py).1 f.type _ _ c hc
  have hsuspect : suspect py (call.nanFree py values) f = true := by
    rw [suspect, Bool.or_eq_true]
    rcases h.1 with hfloat | hprecise
    · exact Or.inr (by simpa [hinside.1 hfloat] using hnan)
    · exact Or.inl (hinside.2 hprecise)
  obtain ⟨hnamed, hnested, -⟩ := h.2
  obtain ⟨more, hpath, hmore⟩ := path_inside.1 f.type _ _ c hc
  cases htext : isText f.type with
  | true =>
    rw [hmore.mp htext, append_nil] at hpath
    exact hnamed ⟨f, hf, htext, hsuspect, hpath⟩
  | false =>
    obtain ⟨name, hname, -⟩ := hnested ⟨f, hf, htext, hsuspect⟩
    have hlong : more = [] := by
      rw [hpath, singleton_append, List.cons.injEq] at hname
      exact hname.2
    rw [hmore.mpr hlong] at htext
    cases htext

theorem Call.not_misses_table {table : Table} {carried : List String → List (WithTop N)}
    (hread : table.readable = true)
    (hcall : call = .rewrite table carried ∨ ∃ written, call = .merge table written carried)
    {c : Column} (hc : c ∈ columnsOf [] [] table.fields) : ¬call.Misses py values given c := by
  intro h
  obtain ⟨f, hf, hin⟩ := mem_columnsOf.mp hc
  rcases hcall with rfl | ⟨written, rfl⟩
  · exact not_mem_nil (h.nanFree ⟨hread, hf⟩ hin)
  · exact not_mem_nil (h.nanFree ⟨hread, hf⟩ hin)

end

/-- Rational numbers, with the one number a double does not keep that is used here. -/
def rationals : Values (WithTop ℚ) ℚ where
  isNan v := v = ⊤
  cast _ v := some v
  decimal digits scale := digits / 10 ^ scale
  round q := if q = 9007199254740993 then 9007199254740992 else q
  round_decimal digits scale h := by
    apply if_neg
    intro heq
    have hscale : (10 : ℚ) ^ scale ≠ 0 := by positivity
    rw [div_eq_iff hscale] at heq
    have hdigits : digits = 9007199254740993 * 10 ^ scale := by exact_mod_cast heq
    have hpos : 1 ≤ 10 ^ scale := Nat.one_le_pow _ _ (by decide)
    rw [doubleExactDigits] at h
    have hcast : (digits.natAbs : Int) = 9007199254740993 * 10 ^ scale := by
      rw [hdigits, Int.natAbs_mul, Int.natAbs_pow]
      norm_num
    have hnat : digits.natAbs = 9007199254740993 * 10 ^ scale := by exact_mod_cast hcast
    omega

def idField : Field := ⟨"id", .primitive "long", true, []⟩

def ratioField : Field := ⟨"ratio", .primitive "double", true, []⟩

def amountField : Field := ⟨"amount", .primitive "decimal(20,0)", true, []⟩

/-- A MERGE that adds a DOUBLE column and inserts a NaN and 1 into it. -/
def addingMerge : Call (WithTop ℚ) ℚ :=
  .merge ⟨[idField], true⟩ [idField, ratioField] fun path =>
    if path = ["ratio"] then [⊤, ((1 : ℚ) : WithTop ℚ)] else []

/-- An UPDATE that rewrites a NaN and 1, and a number a double does not keep. -/
def rewritingUpdate : Call (WithTop ℚ) ℚ :=
  .rewrite ⟨[idField, ratioField, amountField], true⟩ fun path =>
    if path = ["ratio"] then [⊤, ((1 : ℚ) : WithTop ℚ)]
    else if path = ["amount"] then [((9007199254740993 : ℚ) : WithTop ℚ)]
    else []

theorem addingMerge_columns : addingMerge.columns =
    [⟨["id"], ["id"], "long"⟩, ⟨["ratio"], ["ratio"], "double"⟩] := rfl

theorem rewritingUpdate_columns : rewritingUpdate.columns =
    [⟨["id"], ["id"], "long"⟩, ⟨["ratio"], ["ratio"], "double"⟩,
      ⟨["amount"], ["amount"], "decimal(20,0)"⟩] := rfl

theorem ofType_nil {type : String} : OfType Metadata.ascii rationals type [] :=
  ⟨fun h => (not_mem_nil h).elim, fun _ _ _ _ h => (not_mem_nil h).elim⟩

theorem ofType_ratio : OfType Metadata.ascii rationals "double" [⊤, ((1 : ℚ) : WithTop ℚ)] where
  nan _ := rfl
  decimal precision scale h := by
    have hnone : decimalOf Metadata.ascii "double" = none := by decide +kernel
    rw [hnone] at h
    cases h

theorem ofType_amount :
    OfType Metadata.ascii rationals "decimal(20,0)" [((9007199254740993 : ℚ) : WithTop ℚ)] where
  nan h := by simp at h
  decimal precision scale h n hn := by
    have htype : decimalOf Metadata.ascii "decimal(20,0)" = some (20, 0) := by decide +kernel
    rw [htype] at h
    cases h
    refine ⟨9007199254740993, by norm_num, ?_⟩
    simpa [rationals] using hn

theorem addingMerge_unbounded :
    addingMerge.Typed Metadata.ascii rationals ∧
      ¬addingMerge.LogsBounds Metadata.ascii rationals none := by
  constructor
  · intro c hc
    rw [addingMerge_columns] at hc
    rcases mem_pair.mp hc with rfl | rfl
    · exact ofType_nil
    · exact ofType_ratio
  · intro h
    have hmem : (⟨["ratio"], ["ratio"], "double"⟩ : Column) ∈ addingMerge.columns := by
      simp [addingMerge_columns]
    have hon : enabled (addingMerge.properties Metadata.ascii rationals none) ["ratio"] = true := by
      decide +kernel
    have hbounded := h _ hmem hon [⊤, ((1 : ℚ) : WithTop ℚ)] fun _ hv => hv
    exact hbounded.alone mem_cons_self 1 (by simp)

theorem rewritingUpdate_bounded :
    rewritingUpdate.LogsBounds Metadata.ascii rationals none := by
  apply (Call.logsBounds_iff ?_).mpr
  · intro c hc hmissed
    exact absurd hmissed (Call.not_misses_table rfl (Or.inl rfl) hc)
  · intro c hc
    rw [rewritingUpdate_columns] at hc
    simp only [mem_cons, not_mem_nil, or_false] at hc
    rcases hc with rfl | rfl | rfl
    · exact ofType_nil
    · exact ofType_ratio
    · exact ofType_amount

end DeltaSwamp.Stats
