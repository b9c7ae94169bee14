import DeltaSwamp.Metadata.State
import DeltaSwamp.Result

/-!
# Adding, dropping, renaming and widening columns

`_valid_type`, `_check_names`, `_assign_ids`, `add_columns`, `drop_column`,
`rename_column` and `alter_column_type` of `engine/metadata.py`.
-/

namespace DeltaSwamp.Metadata

/-- A field dict: what it has under `name`, if that is text, and under `type`. -/
structure RawFieldOf (α : Type) where
  name : Option String
  type : Option α
  nullable : Option Bool
  metadata : Fields

/-- A type as a caller gives it: text, a dict by its `type`, or neither. -/
inductive RawType where
  | text (name : String)
  | struct (fields : Option (List (RawFieldOf RawType)))
  | array (element : Option RawType) (containsNull : Option Bool)
  | map (key value : Option RawType) (valueContainsNull : Option Bool)
  | other

abbrev RawField := RawFieldOf RawType

section
variable (py : Python)

/-- `_PRIMITIVE_TYPES`. -/
def primitiveTypes : List String :=
  ["string", "long", "integer", "short", "byte", "float", "double", "boolean", "binary", "date",
    "timestamp", "timestamp_ntz", "variant"]

/-- A run of digits at the start of a text, as a number, and what follows it. -/
def readDigits (value : Nat) : List Char → Nat × List Char
  | [] => (value, [])
  | c :: rest =>
    match py.digit c with
    | some d => readDigits (10 * value + d) rest
    | none => (value, c :: rest)

/-- `\d+` at the start of a text. -/
def readNumber : List Char → Option (Nat × List Char)
  | [] => none
  | c :: rest => (py.digit c).map fun d => readDigits py d rest

/-- `_DECIMAL.fullmatch`: the precision and the scale. -/
def decimalOf (text : String) : Option (Nat × Nat) := do
  let inside ← text.toList.dropPrefix? "decimal(".toList
  let (precision, rest) ← readNumber py inside
  match rest with
  | ',' :: rest =>
    let (scale, rest) ← readNumber py (rest.dropWhile py.isSpace)
    if rest = [')'] then some (precision, scale) else none
  | _ => none

def decimalType (precision scale : Nat) : String := s!"decimal({precision},{scale})"

/-- `_valid_type` on text. -/
def validPrimitive (name location : String) : Except Refused DataType :=
  if name ∈ primitiveTypes then .ok (.primitive name)
  else
    match decimalOf py name with
    | some (precision, scale) =>
      if 1 ≤ precision ∧ precision ≤ 38 ∧ scale ≤ precision then
        .ok (.primitive (decimalType precision scale))
      else .error (.decimalRange location)
    | none => .error (.notDeltaType location)

mutual

/-- `_valid_type`: a Delta type, its flags defaulted. -/
def validType (location : String) : RawType → Except Refused DataType
  | .text name => validPrimitive py name location
  | .struct none | .struct (some []) => .error (.noFields location)
  | .struct (some (f :: fs)) => (validFields location (f :: fs)).map .struct
  | .array none _ => .error (.notDeltaType location)
  | .array (some e) containsNull =>
    (validType (location ++ "[]") e).map fun e => .array e (containsNull.getD true)
  | .map (some k) (some v) containsNull => do
    let k ← validType (location ++ " key") k
    let v ← validType (location ++ " value") v
    return .map k v (containsNull.getD true)
  | .map _ _ _ => .error (.notDeltaType location)
  | .other => .error (.notDeltaType location)

/-- `_valid_field`, on each. -/
def validFields (location : String) : List RawField → Except Refused (List Field)
  | [] => .ok []
  | ⟨some name, some type, nullable, metadata⟩ :: fs => do
    let type ← validType (location ++ "." ++ name) type
    let rest ← validFields location fs
    return ⟨name, type, nullable.getD true, metadata⟩ :: rest
  | _ :: _ => .error .notField

end

/-- `_INVALID_NAME_CHARS`. -/
def invalidNameChars : List Char :=
  [' ', ',', ';', '\x7b', '\x7d', '(', ')', '\n', '\t', '=']

mutual

/-- `_check_names`, on the names of one struct not yet in `seen`. -/
def checkNames (columnMapping : Bool) (seen : List String) : List Field → Except Refused Unit
  | [] => .ok ()
  | ⟨name, type, _, _⟩ :: fs => do
    if name = "" then .error .emptyName
    if py.lower name ∈ seen then .error (.duplicateName name)
    if !columnMapping && name.toList.any (· ∈ invalidNameChars) then .error (.invalidName name)
    checkTypeNames columnMapping type
    checkNames columnMapping (py.lower name :: seen) fs

/-- `_check_names`, on the structs of `_structs_in`. -/
def checkTypeNames (columnMapping : Bool) : DataType → Except Refused Unit
  | .primitive _ => .ok ()
  | .struct fields => checkNames columnMapping [] fields
  | .array e _ => checkTypeNames columnMapping e
  | .map k v _ => do
    checkTypeNames columnMapping k
    checkTypeNames columnMapping v

end

/-- A column-mapping id and a physical name, written into a field's metadata. -/
def FieldOf.assign {α : Type} (f : FieldOf α) (id : Int) (physical : String) : FieldOf α :=
  { f with metadata := (f.metadata.insert cmId (.int id)).insert cmPhysical (.str physical) }

section
variable (physical : String → Int → String)

mutual

/-- `_assign_ids` on the fields inside a type: the type, and the next id. -/
def assignType : DataType → Int → DataType × Int
  | .primitive name, next => (.primitive name, next)
  | .struct fields, next =>
    let r := assignIds fields next
    (.struct r.1, r.2)
  | .array e b, next =>
    let r := assignType e next
    (.array r.1 b, r.2)
  | .map k v b, next =>
    let r := assignType k next
    let q := assignType v r.2
    (.map r.1 q.1 b, q.2)

/-- `_assign_ids`: an id and a physical name for every field, recursively. -/
def assignIds : List Field → Int → List Field × Int
  | [], next => ([], next)
  | ⟨n, t, b, m⟩ :: fs, next =>
    let r := assignType t (next + 1)
    let q := assignIds fs r.2
    (FieldOf.assign ⟨n, r.1, b, m⟩ next (physical n next) :: q.1, q.2)

end

/-- `_assign_ids` on fields that stand in a schema. -/
def assignAt : List Position → DataType → Int → DataType × Int
  | [], schema, next => (schema, next)
  | p :: ps, schema, next =>
    match schema.fieldAt p with
    | none => assignAt ps schema next
    | some f =>
      let r := assignIds physical [f] next
      assignAt ps (schema.update (fun _ => r.1) p) r.2

end

/-- `f"col-{uuid.uuid4()}"`: the text drawn when the field with that id is named. -/
def drawn (uuid : Int → String) : String → Int → String := fun _ id => "col-" ++ uuid id

/-- `_max_column_id`: the recorded maximum or any field's. -/
def maxColumnId (state : TableState) : Except Refused Int := do
  let highest ← match (state.configuration.get cmMax).filter (· ≠ "") with
    | none => .ok 0
    | some recorded => (py.int (.str recorded)).elim (.error .badNumber) .ok
  state.schema.walk.foldlM (fun highest f =>
    match f.id with
    | none | some .null => .ok highest
    | some value => (py.int value).elim (.error .badNumber) fun n => .ok (max highest n)) highest

/-- `_require_column_mapping`. -/
def requireColumnMapping (state : TableState) : Except Refused Unit :=
  if !mapped py state.configuration then .error .noColumnMapping
  else if "columnMapping" ∉ supportedFeatures state.protocol then .error .noColumnMappingFeature
  else .ok ()

/-- `_CDF_RESERVED`. -/
def cdfReserved : List String := ["_change_type", "_commit_version", "_commit_timestamp"]

def cdfEnabled (config : Config) : Bool :=
  py.lower ((config.get "delta.enableChangeDataFeed").getD "false") = "true"

/-- The checks `add_columns` makes of each field in turn, `existing` the names so far. -/
def checkNewFields (config : Config) (existing : List String) :
    List RawField → Except Refused Unit
  | [] => .ok ()
  | f :: fs =>
    match f.name, f.type with
    | some name, some _ => do
      if py.lower name ∈ existing then .error (.columnExists name)
      if !f.nullable.getD true then .error (.notNullColumn name)
      if cdfEnabled py config && py.lower name ∈ cdfReserved then .error (.changeFeedReserved name)
      checkNewFields config (py.lower name :: existing) fs
    | _, _ => .error .notField

def cmPrefix : String := "delta.columnMapping."

/-- One field `add_columns` adds: its type checked, its metadata its own. -/
def newColumn (protocol : Protocol) (f : RawField) : Except Refused Field :=
  match f.name, f.type with
  | some name, some type => do
    let type ← validType py name type
    if f.metadata.any fun m => m.1 = generation || startsWith m.1 "delta.identity." then
      .error (.generatedColumn name)
    if f.metadata.any (fun m => m.1 = "CURRENT_DEFAULT") &&
        "allowColumnDefaults" ∉ supportedFeatures protocol then
      .error (.defaultWithoutFeature name)
    return ⟨name, type, f.nullable.getD true,
      f.metadata.filter fun m => !startsWith m.1 cmPrefix⟩
  | _, _ => .error .notField

/-- The protocol extended to support `features`, if there are any. -/
def protocolFor (protocol : Protocol) (features : List String) : Option Protocol :=
  if features = [] then none else withFeatures protocol features

def addColumns (uuid : Int → String) (state : TableState) (newFields : List RawField) :
    Except Refused Change := do
  let fields := state.schema.fields
  checkNewFields py state.configuration (fields.map fun f => py.lower f.name) newFields
  if newFields = [] then return .nothing
  let added ← newFields.mapM (newColumn py state.protocol)
  checkNames py (mapped py state.configuration) [] added
  let features := typeFeaturesOf py.lower added
  if mapped py state.configuration then
    let highest ← maxColumnId py state
    let r := assignIds (drawn uuid) added (highest + 1)
    return {
      protocol := protocolFor state.protocol features
      metadata := some { state.metadata with
        schema := .struct (fields ++ r.1)
        configuration := state.configuration.set cmMax (py.str (r.2 - 1)) }
      clustering := none }
  else
    return {
      protocol := protocolFor state.protocol features
      metadata := some { state.metadata with schema := .struct (fields ++ added) }
      clustering := none }

def isPartition (state : TableState) (name : String) : Bool :=
  state.metadata.partitionColumns.any fun p => py.lower p = py.lower name

def dropColumn (state : TableState) (column : String) : Except Refused Change := do
  requireColumnMapping py state
  let path ← splitIdentifier py column
  let found ← find py state.schema.fields path
  let name := found.target.name
  if path.length = 1 && isPartition py state name then .error (.partitionColumn name)
  if found.container.length = 1 then .error (.lastColumn name)
  if path.length = 1 && state.metadata.partitionColumns ≠ [] &&
      (found.container.eraseIdx found.index).all fun f => isPartition py state f.name then
    .error (.lastDataColumn name)
  let physical := physicalPath py state.schema.fields path
  if (clusteringColumns state).any fun c => c.take physical.length = physical then
    .error (.clusteringColumn name)
  let named := dependents py state name
  if named ≠ [] then .error (.referenced name named)
  return {
    protocol := none
    metadata := some { state.metadata with
      schema := state.schema.update (fun _ => []) found.position }
    clustering := none }

/-- The parts of the name a column gets. -/
def newPath (new : String) : Except Refused (List String) :=
  if new.toList.any fun c => c = backtick || c = '.' then splitIdentifier py new else .ok [new]

def renameColumn (state : TableState) (old new : String) : Except Refused Change := do
  requireColumnMapping py state
  let path ← splitIdentifier py old
  let found ← find py state.schema.fields path
  let current := found.target.name
  let parts ← newPath py new
  if 1 < parts.length && (parts.length ≠ path.length ||
      parts.dropLast.map py.lower ≠ path.dropLast.map py.lower) then .error (.movedColumn new)
  let leaf := parts.getLastD ""
  if leaf = "" then .error .emptyName
  if (found.container.eraseIdx found.index).any fun f => py.lower f.name = py.lower leaf then
    .error (.columnExists leaf)
  if path.length = 1 && cdfEnabled py state.configuration && py.lower leaf ∈ cdfReserved then
    .error (.changeFeedReserved leaf)
  if leaf = current then return .nothing
  if py.lower leaf = py.lower current then .error (.sameName leaf)
  let named := dependents py state current
  if named ≠ [] then .error (.referenced current named)
  let partitions := state.metadata.partitionColumns
  return {
    protocol := none
    metadata := some { state.metadata with
      schema := state.schema.update (fun f => [{ f with name := leaf }]) found.position
      partitionColumns :=
        if path.length = 1 then
          partitions.map fun p => if py.lower p = py.lower current then leaf else p
        else partitions }
    clustering := none }

end

end DeltaSwamp.Metadata
