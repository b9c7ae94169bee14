import DeltaSwamp.Result
import DeltaSwamp.Text

/-!
# Nested types and arrays

The kernel's types, and Arrow arrays of structs, lists and maps over arrays of
values.
-/

namespace DeltaSwamp.Arrow

/-- The metadata of a field from which a table computes its value. -/
inductive ComputedKey where
  | currentDefault
  | generationExpression
  | identityStart
  deriving DecidableEq

structure FieldOf (α : Type) where
  name : Text
  type : α
  nullable : Bool
  computed : List ComputedKey

/-- `PrimitiveType` -/
inductive Primitive where
  | string
  | long
  | integer
  | short
  | byte
  | float
  | double
  | boolean
  | binary
  | date
  | timestamp
  | timestampNtz
  | decimal (precision scale : Nat)
  | other (name : Text)
  deriving DecidableEq

/-- `DataType` of the kernel -/
inductive KernelType where
  | primitive (type : Primitive)
  | struct (fields : List (FieldOf KernelType))
  | variant (fields : List (FieldOf KernelType))
  | array (element : KernelType) (containsNull : Bool)
  | map (key value : KernelType) (valueContainsNull : Bool)

abbrev Field := FieldOf KernelType

theorem KernelType.induct {P : KernelType → Prop} {Q : List Field → Prop}
    (primitive : ∀ p, P (.primitive p)) (struct : ∀ fields, Q fields → P (.struct fields))
    (variant : ∀ fields, Q fields → P (.variant fields))
    (array : ∀ element b, P element → P (.array element b))
    (map : ∀ key value b, P key → P value → P (.map key value b))
    (nil : Q []) (cons : ∀ (f : Field) fs, P f.type → Q fs → Q (f :: fs)) :
    (∀ t, P t) ∧ ∀ fs, Q fs := by
  have htype : ∀ t, P t := fun t => KernelType.rec (motive_1 := P) (motive_2 := Q)
    (motive_3 := fun f => P f.type) primitive struct variant (fun e b => array e b)
    (fun k v b => map k v b) nil (fun f fs => cons f fs) (fun _ _ _ _ h => h) t
  refine ⟨htype, fun fs => ?_⟩
  induction fs with
  | nil => exact nil
  | cons f fs ih => exact cons f fs (htype f.type) ih

mutual

/-- No struct names a field twice. -/
def KernelType.Named : KernelType → Prop
  | .primitive _ => True
  | .struct fields => (fields.map (·.name)).Nodup ∧ NamedFields fields
  | .variant fields => (fields.map (·.name)).Nodup ∧ NamedFields fields
  | .array element _ => element.Named
  | .map key value _ => key.Named ∧ value.Named

def NamedFields : List Field → Prop
  | [] => True
  | ⟨_, type, _, _⟩ :: fields => type.Named ∧ NamedFields fields

end

inductive ListKind where
  | list
  | largeList
  | listView
  | fixedSizeList
  deriving DecidableEq

/-- Which entries are valid, if any is not. -/
abbrev Nulls := Option (List Bool)

structure ColumnOf (α : Type) where
  name : Text
  nullable : Bool
  values : α

/-- An Arrow array over arrays `α` of values. -/
inductive Nested (α : Type) where
  | leaf (array : α)
  | struct (length : Nat) (columns : List (ColumnOf (Nested α))) (nulls : Nulls)
  | list (kind : ListKind) (offsets : List Nat) (item : ColumnOf (Nested α)) (nulls : Nulls)
  | map (sorted : Bool) (offsets : List Nat) (key value : ColumnOf (Nested α))
    (entryNulls nulls : Nulls)

abbrev Column (α : Type) := ColumnOf (Nested α)

theorem find?_column {α : Type} {columns : List (ColumnOf α)} {column : ColumnOf α}
    (hnodup : (columns.map (·.name)).Nodup) (hmem : column ∈ columns) :
    columns.find? (fun c => c.name = column.name) = some column := by
  cases hfind : columns.find? (fun c => c.name = column.name) with
  | none =>
    have hnone := List.find?_eq_none.mp hfind column hmem
    simp at hnone
  | some found =>
    have hname : found.name = column.name := by simpa using List.find?_some hfind
    rw [List.inj_on_of_nodup_map hnodup (List.mem_of_find?_eq_some hfind) hmem hname]

inductive DeltaError where
  | duplicateField
  /-- A field is missing from a struct read in file order. -/
  | missingField (name : Text)
  /-- A struct array without columns has no length. -/
  | noColumns
  deriving DecidableEq

/-- An Arrow type as a file stores it. -/
inductive DiskType where
  | leaf (name : Text)
  | struct (fields : List (Text × DiskType))
  | list (kind : ListKind) (item : DiskType)
  | map (entries : DiskType)

/-- What putting structs together takes from Arrow and the kernel. -/
structure Building (α : Type) where
  /-- `StructType::try_new` -/
  tryNew : List Field → Except DeltaError KernelType
  tryNew_named : ∀ fields, (fields.map (·.name)).Nodup → tryNew fields = .ok (.struct fields)
  /-- whether a VARIANT's fields are those of `unshredded_variant` -/
  isUnshredded : List Field → Bool
  isUnshredded_iff : ∀ fields, isUnshredded fields = true ↔
    fields = [⟨"metadata".toList, .primitive .binary, false, []⟩,
      ⟨"value".toList, .primitive .binary, false, []⟩]
  /-- `StructArray::try_new` of an array's own columns, which takes the length of the first -/
  structArray : Nat → List (Column α) → Nulls → Except DeltaError (Nested α)
  structArray_ok : ∀ length columns nulls array, structArray length columns nulls = .ok array ↔
    columns ≠ [] ∧ array = .struct length columns nulls

section
variable {α : Type} (lib : Building α)

/-- Where the file has a field; after all of them if it has not. -/
def position (disk : List (Text × DiskType)) (name : Text) : Nat :=
  disk.findIdx fun d => d.1 = name

mutual

/-- `order_type`: the requested type in the order of the file where it is under a map. -/
def orderType : KernelType → DiskType → Bool → Except DeltaError (Option KernelType)
  | .map key value valueContainsNull, .map (.struct [(_, diskKey), (_, diskValue)]), _ => do
    let orderedKey ← orderType key diskKey true
    let orderedValue ← orderType value diskValue true
    if orderedKey.isNone && orderedValue.isNone then return none
    else return some (.map (orderedKey.getD key) (orderedValue.getD value) valueContainsNull)
  | .array element containsNull, .list kind item, inMap =>
    if kind = .list || kind = .largeList then do
      let ordered ← orderType element item inMap
      return ordered.map fun element => .array element containsNull
    else .ok none
  | .variant fields, .struct disk, true =>
    let names := ["value".toList, "metadata".toList]
    if lib.isUnshredded fields && disk.map Prod.fst = names then do
      return some (← lib.tryNew (names.filterMap fun n => fields.find? fun f => f.name = n))
    else .ok none
  | .struct fields, .struct disk, inMap => do
    let (changed, ordered) ← orderFields fields disk inMap
    let sorted :=
      if inMap then ordered.mergeSort fun f g => position disk f.name ≤ position disk g.name
      else ordered
    if changed || sorted.map (·.name) ≠ ordered.map (·.name) then return some (← lib.tryNew sorted)
    else return none
  | _, _, _ => .ok none

/-- The fields of a struct, and whether the type of one has changed. -/
def orderFields :
    List Field → List (Text × DiskType) → Bool → Except DeltaError (Bool × List Field)
  | [], _, _ => .ok (false, [])
  | ⟨name, type, nullable, computed⟩ :: fields, disk, inMap => do
    let ordered ←
      match disk.find? fun d => d.1 = name with
      | some d => orderType type d.2 inMap
      | none => .ok none
    let (changed, fields) ← orderFields fields disk inMap
    return (ordered.isSome || changed, ⟨name, ordered.getD type, nullable, computed⟩ :: fields)

end

mutual

/-- `reorder_array` -/
def reorderArray : KernelType → Nested α → Except DeltaError (Nested α)
  | .struct fields, .struct length columns nulls => do
    lib.structArray length (← reorderFields fields columns) nulls
  | .variant fields, .struct length columns nulls => do
    lib.structArray length (← reorderFields fields columns) nulls
  | .array element _, .list kind offsets item nulls =>
    if kind = .list || kind = .largeList then do
      return .list kind offsets { item with values := ← reorderArray element item.values } nulls
    else .ok (.list kind offsets item nulls)
  | .map key value _, .map sorted offsets keys values entryNulls nulls => do
    let orderedKeys ← reorderArray key keys.values
    let orderedValues ← reorderArray value values.values
    return .map sorted offsets { keys with values := orderedKeys }
      { values with values := orderedValues } entryNulls nulls
  | _, array => .ok array

def reorderFields : List Field → List (Column α) → Except DeltaError (List (Column α))
  | [], _ => .ok []
  | ⟨name, type, _, _⟩ :: fields, columns =>
    match columns.find? fun c => c.name = name with
    | none => .error (.missingField name)
    | some column => do
      let values ← reorderArray type column.values
      let rest ← reorderFields fields columns
      return { column with values := values } :: rest

end

end

end DeltaSwamp.Arrow
