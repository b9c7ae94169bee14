import DeltaSwamp.Metadata.Columns

/-!
# Merging a write's schema into the table's

`arrow_to_delta_type` and `merge_schema` of `engine/metadata.py`. The fields a
merge adds get their ids once it is over, so it returns where they stand in the
merged schema, in the order they were added.

`_widening_allowed`, `_normalise_type` and `alter_column_type` of
`engine/metadata.py`.
-/

namespace DeltaSwamp.Metadata

section
variable (py : Python)

/-- `_INTEGRAL`, in order. -/
def integralRank : String → Option Nat
  | "byte" => some 0
  | "short" => some 1
  | "integer" => some 2
  | "long" => some 3
  | _ => none

/-- `_INTEGRAL_DIGITS`. -/
def integralDigits : String → Option Nat
  | "byte" | "short" | "integer" => some 10
  | "long" => some 20
  | _ => none

def withoutSpaces (text : String) : String := String.ofList (text.toList.filter (· ≠ ' '))

/-- `_widening_allowed`, to a decimal type. -/
def decimalWidening (old : String) (precision scale : Nat) : Bool :=
  if ¬ (0 < precision ∧ precision ≤ 38) ∨ precision < scale then false
  else
    match decimalOf py (withoutSpaces old) with
    | some (p, s) =>
      decide (p ≤ precision ∧ s ≤ scale ∧ (p : Int) - s ≤ (precision : Int) - scale)
    | none =>
      match integralDigits old with
      | some digits => decide (digits ≤ precision - scale)
      | none => false

def wideningAllowed (old new : String) : Bool :=
  if old = new then false
  else
    match integralRank old, integralRank new with
    | some i, some j => decide (i < j)
    | _, _ =>
      if old = "float" && new = "double" then true
      else if (old = "byte" || old = "short" || old = "integer") && new = "double" then true
      else if old = "date" && new = "timestamp_ntz" then true
      else
        match decimalOf py new with
        | some (precision, scale) => decimalWidening py old precision scale
        | none => false

/-- `_TYPE_ALIASES`. -/
def typeAlias : String → String
  | "int" => "integer"
  | "bigint" => "long"
  | "smallint" => "short"
  | "tinyint" => "byte"
  | "real" => "float"
  | "numeric" => "decimal"
  | "dec" => "decimal"
  | other => other

/-- `re.fullmatch(r"\d+\)", tail)`: the digits. -/
def bareScale (tail : List Char) : Option String :=
  match readNumber py tail with
  | some (_, [')']) => some (String.ofList tail.dropLast)
  | _ => none

/-- `_normalise_type`. -/
def normaliseType (name : String) : String :=
  let text := (withoutSpaces (py.lower (strip py name))).toList
  let head := typeAlias (String.ofList (text.takeWhile (· ≠ '(')))
  match text.dropWhile (· ≠ '(') with
  | [] => if head = "decimal" then "decimal(10,0)" else head
  | _ :: tail =>
    match if head = "decimal" then bareScale py tail else none with
    | some digits => "decimal(" ++ digits ++ ",0)"
    | none => head ++ "(" ++ String.ofList tail

def typeChanges : String := "delta.typeChanges"

/-- One more entry of a field's type history. -/
def FieldOf.recordChange {α : Type} (f : FieldOf α) (old new : String) : Fields :=
  let history := match f.metadata.lookup typeChanges with
    | some (.arr items) => items
    | _ => []
  f.metadata.insert typeChanges
    (.arr (history ++ [.obj [("fromType", .str old), ("toType", .str new)]]))

def wideningEnabled (config : Config) : Bool :=
  py.lower ((config.get "delta.enableTypeWidening").getD "false") = "true"

/-- Whether a partition column's stored values parse as the new type. -/
def partitionKeepsValues (old new : String) : Bool :=
  let oldScale := (decimalOf py old).elim 0 Prod.snd
  !(old = "date" || (decimalOf py new).any fun d => d.2 ≠ oldScale)

def alterColumnType (state : TableState) (column new : String) : Except Refused Change := do
  let path ← splitIdentifier py column
  let found ← find py state.schema.fields path
  let newType := normaliseType py new
  if found.target.type = .primitive newType then return .nothing
  if !wideningEnabled py state.configuration then .error (.wideningDisabled column)
  match found.target.type with
  | .primitive old =>
    if !wideningAllowed py old newType then .error (.notWidening column)
    if path.length = 1 && isPartition py state found.target.name &&
        !partitionKeepsValues py old newType then .error (.partitionColumn column)
    let named := (dependents py state found.target.name).filter (· ≠ statsColumns)
    if named ≠ [] then .error (.referenced column named)
    return {
      protocol := withFeatures state.protocol
        ("typeWidening" :: (DataType.primitive newType).typeFeatures py.lower)
      metadata := some { state.metadata with
        schema := state.schema.update (fun f =>
          [{ f with type := .primitive newType, metadata := f.recordChange old newType }])
          found.position }
      clustering := none }
  | _ => .error (.notWidening column)

end

structure ArrowFieldOf (α : Type) where
  name : String
  type : α
  nullable : Bool
  metadata : List (String × String)

/-- The list types; a merge looks inside the first two. -/
inductive ListKind where
  | list | largeList | fixedSizeList | listView | largeListView
  deriving DecidableEq

inductive ArrowType where
  | boolean | int8 | int16 | int32 | int64 | float32 | float64
  /-- With the large types and the views. -/
  | string | binary
  | date
  | timestamp (zoned : Bool)
  | decimal (precision scale : Int)
  | dictionary (value : ArrowType)
  | struct (fields : List (ArrowFieldOf ArrowType))
  | list (kind : ListKind) (value : ArrowType) (nullable : Bool)
  | map (key item : ArrowType) (nullable : Bool)
  /-- A type Delta has no equivalent of, as an unsigned integer. -/
  | other (name : String)

abbrev ArrowField := ArrowFieldOf ArrowType

/-- What `arrow_to_delta_field` keeps of a field's metadata. -/
def keptMetadata (metadata : List (String × String)) : Fields :=
  (metadata.filter fun m => !(startsWith m.1 cmPrefix || startsWith m.1 "PARQUET:")).foldl
    (fun kept m => kept.insert m.1 (.str m.2)) []

mutual

/-- `arrow_to_delta_type`. -/
def arrowToDelta : ArrowType → Except Refused DataType
  | .boolean => .ok (.primitive "boolean")
  | .int8 => .ok (.primitive "byte")
  | .int16 => .ok (.primitive "short")
  | .int32 => .ok (.primitive "integer")
  | .int64 => .ok (.primitive "long")
  | .float32 => .ok (.primitive "float")
  | .float64 => .ok (.primitive "double")
  | .string => .ok (.primitive "string")
  | .binary => .ok (.primitive "binary")
  | .date => .ok (.primitive "date")
  | .timestamp zoned => .ok (.primitive (if zoned then "timestamp" else "timestamp_ntz"))
  | .decimal precision scale =>
    if 0 < precision ∧ precision ≤ 38 ∧ 0 ≤ scale ∧ scale ≤ precision then
      .ok (.primitive (decimalType precision.toNat scale.toNat))
    else .error (.noArrowType "decimal")
  | .dictionary value => arrowToDelta value
  | .struct fields => (arrowToFields fields).map .struct
  | .list _ value nullable => (arrowToDelta value).map fun e => .array e nullable
  | .map key item nullable => do
    let k ← arrowToDelta key
    let v ← arrowToDelta item
    return .map k v nullable
  | .other name => .error (.noArrowType name)

/-- `arrow_to_delta_field`, on each. -/
def arrowToFields : List ArrowField → Except Refused (List Field)
  | [] => .ok []
  | ⟨name, type, nullable, metadata⟩ :: fs => do
    let type ← arrowToDelta type
    let rest ← arrowToFields fs
    return ⟨name, type, nullable, keptMetadata metadata⟩ :: rest

end

/-- What a merge leaves of a part of the schema: the part, where in it fields
were added, and the types columns were widened to. -/
structure Merged (α : Type) where
  merged : α
  added : List Position
  widened : List String

namespace Merged

variable {α β : Type}

def unchanged (x : α) : Merged α := ⟨x, [], []⟩

/-- The part seen from the one it is in. -/
def inside (m : Merged α) (step : Step) (rebuild : α → β) : Merged β :=
  ⟨rebuild m.merged, m.added.map (step :: ·), m.widened⟩

end Merged

section
variable (py : Python) (state : TableState)

/-- `new_field`: of the metadata, only a comment is carried. -/
def newField (f : ArrowField) (path : String) : Except Refused Field := do
  let type ← arrowToDelta f.type
  let comment := (keptMetadata f.metadata).lookup "comment"
  if !path.toList.any (· = '.') && py.lower path ∈ cdfReserved &&
      cdfEnabled py state.configuration then .error (.changeFeedReserved path)
  return ⟨f.name, type, true, (comment.map fun c => ("comment", c)).toList⟩

/-- The table's primitive type widened to take the data's, or none if it takes it as it is. -/
def mergePrimitive (table : String) (data : ArrowType) (path : String) (nested : Bool) :
    Except Refused (Option String) :=
  match arrowToDelta data with
  | .ok (.primitive name) => do
    let dataName := withoutSpaces name
    let old := withoutSpaces table
    if dataName = old || !wideningAllowed py old dataName then return none
    if !wideningEnabled py state.configuration then .error (.wideningDisabled path)
    if nested then .error (.widenNested path)
    if isPartition py state path then .error (.partitionColumn path)
    let leaf := String.ofList (path.toList.reverse.takeWhile (· ≠ '.')).reverse
    let named := (dependents py state leaf).filter (· ≠ statsColumns)
    if named ≠ [] then .error (.referenced path named)
    return some dataName
  | _ => .ok none

/-- The index of the field the data's field is matched with: the last of that name. -/
def matchIndex (fields : List Field) (name : String) : Option Nat :=
  ((fields.zipIdx.filter fun e => py.lower e.1.name = py.lower name).getLast?).map Prod.snd

/-- The type a field has after its own was merged: widened, with the change recorded. -/
def widenField (f : Field) (merged : DataType) (widened : Option String) : Field :=
  match widened, f.type with
  | some new, .primitive old =>
    { f with type := .primitive new, metadata := f.recordChange old new }
  | _, _ => { f with type := merged }

mutual

/-- `merge_type`: the type with its structs merged, and what a primitive is widened to. -/
def mergeType (table : DataType) (path : String) (nested : Bool) :
    ArrowType → Except Refused (Merged DataType × Option String)
  | .struct dataFields =>
    match table with
    | .struct fields => do
      let m ← mergeFields fields path nested dataFields
      return (⟨.struct m.merged, m.added, m.widened⟩, none)
    | .primitive name => do
      let w ← mergePrimitive py state name (.struct dataFields) path nested
      return (.unchanged table, w)
    | _ => .ok (.unchanged table, none)
  | .list kind value nullable =>
    match table with
    | .array e b =>
      if kind = .list || kind = .largeList then do
        let m ← mergeType e (path ++ ".element") true value
        return (m.1.inside .element fun e => .array e b, none)
      else .ok (.unchanged table, none)
    | .primitive name => do
      let w ← mergePrimitive py state name (.list kind value nullable) path nested
      return (.unchanged table, w)
    | _ => .ok (.unchanged table, none)
  | .map key item nullable =>
    match table with
    | .map k v b => do
      let m ← mergeType k (path ++ ".key") true key
      let n ← mergeType v (path ++ ".value") true item
      return (⟨.map m.1.merged n.1.merged b,
        m.1.added.map (.key :: ·) ++ n.1.added.map (.value :: ·), m.1.widened ++ n.1.widened⟩, none)
    | .primitive name => do
      let w ← mergePrimitive py state name (.map key item nullable) path nested
      return (.unchanged table, w)
    | _ => .ok (.unchanged table, none)
  | data =>
    match table with
    | .primitive name => do
      let w ← mergePrimitive py state name data path nested
      return (.unchanged table, w)
    | _ => .ok (.unchanged table, none)

/-- `merge_fields`: each of the data's fields in turn. -/
def mergeFields (fields : List Field) (path : String) (nested : Bool) :
    List ArrowField → Except Refused (Merged (List Field))
  | [] => .ok (.unchanged fields)
  | ⟨name, type, nullable, metadata⟩ :: fs =>
    let location := if path = "" then name else path ++ "." ++ name
    match matchIndex py fields name with
    | none => do
      let f ← newField py state ⟨name, type, nullable, metadata⟩ location
      let m ← mergeFields (fields ++ [f]) path nested fs
      return { m with added := [.field fields.length] :: m.added }
    | some i =>
      match fields[i]? with
      | none => .ok (.unchanged fields)
      | some f => do
        let m ← mergeType f.type location nested type
        let r ← mergeFields (fields.set i (widenField f m.1.merged m.2)) path nested fs
        return ⟨r.merged, m.1.added.map (.field i :: ·) ++ r.added,
          m.1.widened ++ m.2.toList ++ r.widened⟩

end

end

/-- The fields that stand at the positions. -/
def fieldsAt (schema : DataType) (added : List Position) : List Field :=
  added.filterMap fun p => schema.fieldAt p

def mergeSchema (py : Python) (uuid : Int → String) (state : TableState) (data : List ArrowField) :
    Except Refused Change := do
  let m ← mergeFields py state state.schema.fields "" false data
  if m.added = [] && m.widened = [] then return .nothing
  let merged := DataType.struct m.merged
  let added := fieldsAt merged m.added
  added.forM fun f => checkNames py (mapped py state.configuration) [] [f]
  let features := (if m.widened = [] then [] else ["typeWidening"]) ++
    typeFeaturesOf py.lower added ++
    m.widened.flatMap fun w => (DataType.primitive w).typeFeatures py.lower
  if mapped py state.configuration then
    let highest ← maxColumnId py state
    let r := assignAt (drawn uuid) m.added merged (highest + 1)
    return {
      protocol := protocolFor state.protocol features
      metadata := some { state.metadata with
        schema := r.1
        configuration := state.configuration.set cmMax (py.str (r.2 - 1)) }
      clustering := none }
  else
    return {
      protocol := protocolFor state.protocol features
      metadata := some { state.metadata with schema := merged }
      clustering := none }

end DeltaSwamp.Metadata
