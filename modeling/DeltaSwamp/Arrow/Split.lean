import DeltaSwamp.Arrow.Cast
import DeltaSwamp.Arrow.Nested
import DeltaSwamp.Dict

/-!
# Splitting a batch by partition values

`split_by_partition` of `partition.rs`: rows grouped by an encoded key, each
group labelled with its first row's values.
-/

namespace DeltaSwamp.Arrow

/-- `eq_ignore_ascii_case` -/
def sameName (a b : Text) : Bool := a.map Char.toLower = b.map Char.toLower

structure Batch where
  columns : List (Column Leaf)
  rows : Nat

/-- Every array of values holds values of its type. -/
def Batch.Valid (batch : Batch) : Prop :=
  ∀ c ∈ batch.columns, ∀ array, c.values = .leaf array → array.Valid

def SlotHolds (type : ArrowType) (slot : Option Raw) : Prop :=
  ∀ v, slot = some v → type.logical.Holds v

/-- What the writer takes from Arrow and the kernel, over rows of `Cell`s. -/
structure Kernels (Cell : Type) extends Casts where
  /-- the Arrow type of a primitive type that has no case of its own -/
  otherArrow : Text → Except Text Plain
  /-- `lossless_cast` of an array of structs, lists or maps -/
  castNested : Nested Leaf → Plain → Except CastError Leaf
  castNested_holds : ∀ array target cast, castNested array target = .ok cast →
    ∀ slot ∈ cast.logical, SlotHolds cast.type slot
  /-- the rows of an array -/
  cells : Nested Leaf → List Cell
  take : Nested Leaf → List Nat → Except Text (Nested Leaf)
  take_cells : ∀ array indices taken, take array indices = .ok taken →
    cells taken = indices.filterMap fun i => (cells array)[i]?
  /-- `RowConverter` -/
  encode : List ArrowType → Except Text (List (Option Raw) → List UInt8)
  /-- rows of these types are encoded alike only if they are the same -/
  encode_injective : ∀ types f, encode types = .ok f → ∀ a b, List.Forall₂ SlotHolds types a →
    List.Forall₂ SlotHolds types b → f a = f b → a = b

inductive SplitError where
  /-- The data has no such column. -/
  | noColumn (name : Text)
  /-- The partition column is not in the table schema. -/
  | notInSchema (name : Text)
  | nonPrimitive (name : Text)
  | cast (name : Text) (e : CastError)
  | arrow (message : Text)
  /-- A single batch has more than 2^32 rows. -/
  | tooManyRows
  | unsupported (type : Primitive)
  | precision (type : Primitive)
  /-- A panic: the first row of a group without rows. -/
  | noFirstRow
  deriving DecidableEq

/-- A `Scalar` of a primitive type. -/
inductive Scalar where
  | null (type : Primitive)
  | value (type : Primitive) (raw : Raw)
  deriving DecidableEq

/-- The row's value, NULL if there is none. -/
def Leaf.slot (array : Leaf) (row : Nat) : Option Raw := (array.logical[row]?).join

/-- `scalar_at`, of an array cast to the type's own Arrow type -/
def scalarAt (array : Leaf) (row : Nat) (type : Primitive) : Except SplitError Scalar :=
  match array.slot row, type with
  | none, type => .ok (.null type)
  | some (.int n), .decimal precision scale =>
    if |n| < 10 ^ precision then .ok (.value (.decimal precision scale) (.int n))
    else .error (.precision (.decimal precision scale))
  | some _, .other name => .error (.unsupported (.other name))
  | some raw, type => .ok (.value type raw)

/-- A partition column found in the batch, cast to the table's type. -/
structure Located where
  name : Text
  index : Nat
  array : Leaf
  type : Primitive

/-- `""` and `__HIVE_DEFAULT_PARTITION__` -/
def isNullMarker (slot : Option Raw) : Bool :=
  slot = some (.text []) || slot = some (.text "__HIVE_DEFAULT_PARTITION__".toList)

/-- `null_partition_markers` -/
def nullPartitionMarkers (array : Leaf) (target : Plain) : Leaf :=
  match array with
  | .plain (.text kind) slots =>
    if target.isText || !slots.any isNullMarker then .plain (.text kind) slots
    else .plain (.text .utf8) (slots.map fun slot => if isNullMarker slot then none else slot)
  | array => array

/-- One partition's rows of a batch. -/
structure PartitionGroup where
  values : Dict Text Scalar
  data : Batch

section
variable {Cell : Type} (lib : Kernels Cell)

/-- `try_into_arrow` of a primitive type -/
def arrowOf : Primitive → Except Text Plain
  | .string => .ok (.text .utf8)
  | .long => .ok (.int true 64)
  | .integer => .ok (.int true 32)
  | .short => .ok (.int true 16)
  | .byte => .ok (.int true 8)
  | .float => .ok (.float .single)
  | .double => .ok (.float .double)
  | .boolean => .ok .boolean
  | .binary => .ok (.other "Binary".toList)
  | .date => .ok .date32
  | .timestamp => .ok (.timestamp .microsecond (some "UTC".toList))
  | .timestampNtz => .ok (.timestamp .microsecond none)
  | .decimal precision scale => .ok (.decimal precision scale)
  | .other name => lib.otherArrow name

/-- The column of a partition value, its NULL markers read and cast without loss. -/
def castPartition (array : Nested Leaf) (target : Plain) : Except CastError Leaf :=
  match array with
  | .leaf array => losslessCast lib.toCasts (nullPartitionMarkers array target) (.plain target)
  | array => lib.castNested array target

/-- One partition column of the batch and its type in the table. -/
def locate (batch : Batch) (schema : List Field) (name : Text) : Except SplitError Located :=
  match batch.columns.findIdx? fun c => sameName c.name name with
  | none => .error (.noColumn name)
  | some index =>
    match schema.find? fun f => sameName f.name name with
    | none => .error (.notInSchema name)
    | some field =>
      match field.type, batch.columns[index]? with
      | .primitive type, some column =>
        match arrowOf lib type with
        | .error message => .error (.arrow message)
        | .ok target =>
          match castPartition lib column.values target with
          | .error e => .error (.cast name e)
          | .ok array => .ok { name := name, index := index, array := array, type := type }
      | _, _ => .error (.nonPrimitive name)

abbrev RowKey := List UInt8

/-- The keys in first-seen order, and the rows of each. -/
structure Grouping where
  order : List RowKey
  groups : Dict RowKey (List Nat)

/-- One row pushed into the group of its key. -/
def Grouping.push (g : Grouping) (key : RowKey) (row : Nat) : Grouping :=
  match g.groups.get key with
  | some rows => { g with groups := g.groups.set key (rows ++ [row]) }
  | none => { order := g.order ++ [key], groups := g.groups.set key [row] }

/-- The loop over the rows of a batch. -/
def groupRows (keyOf : Nat → RowKey) : List Nat → Grouping → Except SplitError Grouping
  | [], g => .ok g
  | row :: rows, g =>
    if row < 2 ^ 32 then groupRows keyOf rows (g.push (keyOf row) row) else .error .tooManyRows

/-- The loop over the keys, each group removed as it is made. -/
def makeGroups {G : Type} (make : List Nat → Except SplitError G) :
    List RowKey → Dict RowKey (List Nat) → Except SplitError (List G)
  | [], _ => .ok []
  | key :: order, groups => do
    let group ← make ((groups.get key).getD [])
    return group :: (← makeGroups make order (groups.pop key))

/-- The columns that are no partition columns. -/
def dataColumns (batch : Batch) (located : List Located) : List (Column Leaf) :=
  (batch.columns.zipIdx.filter fun c => c.2 ∉ located.map (·.index)).map Prod.fst

def liftArrow {α : Type} : Except Text α → Except SplitError α
  | .ok a => .ok a
  | .error message => .error (.arrow message)

/-- The scalars of one row, by partition column. -/
def rowValues (row : Nat) : List Located → Dict Text Scalar → Except SplitError (Dict Text Scalar)
  | [], values => .ok values
  | l :: located, values => do
    let scalar ← scalarAt l.array row l.type
    rowValues row located (values.set l.name scalar)

/-- One group: its first row's values and its rows of the data columns. -/
def makeGroup (columns : List (Column Leaf)) (located : List Located) (indices : List Nat) :
    Except SplitError PartitionGroup :=
  match indices with
  | [] => .error .noFirstRow
  | first :: _ => do
    let values ← rowValues first located []
    let taken ← columns.mapM fun c => do
      let array ← liftArrow (lib.take c.values indices)
      return { c with values := array }
    return { values := values, data := { columns := taken, rows := indices.length } }

/-- `split_by_partition` -/
def splitByPartition (batch : Batch) (partitionColumns : List Text) (schema : List Field) :
    Except SplitError (List PartitionGroup) := do
  let located ← partitionColumns.mapM (locate lib batch schema)
  let encode ← liftArrow (lib.encode (located.map (·.array.type)))
  let keyOf := fun row => encode (located.map (·.array.slot row))
  let grouping ← groupRows keyOf (List.range batch.rows) { order := [], groups := [] }
  makeGroups (makeGroup lib (dataColumns batch located) located) grouping.order grouping.groups

end

inductive ConformError where
  /-- A partitioned append must supply every partition column. -/
  | noPartitionColumn (name : Text)
  /-- The data has a column more than once. -/
  | duplicate (path : Text)
  /-- A data column matches more than one table column. -/
  | matchesTwo (name : Text)
  /-- The table fills the column from an expression this writer does not evaluate. -/
  | computed (path : Text)
  /-- The table declares the missing column NOT NULL. -/
  | notNull (path : Text)
  /-- The data has columns that are not in the table schema. -/
  | extra (paths : List Text)
  | mismatch (path what : Text)
  | cannotWrite (path : Text) (type : Plain) (e : CastError)
  | arrow (message : Text)
  deriving DecidableEq

/-- A column of values without a valid one. -/
def Nested.AllNull (length : Nat) : Nested Leaf → Prop
  | .leaf array => array.logical = List.replicate length none
  | .struct n _ nulls => n = length ∧ nulls = some (List.replicate length false)
  | .list _ _ _ nulls => nulls = some (List.replicate length false)
  | .map _ _ _ _ _ nulls => nulls = some (List.replicate length false)

/-- `null_count` -/
def Nested.nullCount : Nested Leaf → Nat
  | .leaf array => array.nullCount
  | .struct _ _ nulls | .list _ _ _ nulls | .map _ _ _ _ _ nulls =>
    (nulls.getD []).countP (· = false)

/-- What conforming takes besides from Rust and Arrow. -/
structure Conforming (Cell : Type) extends Kernels Cell where
  /-- `to_lowercase` -/
  lower : Text → Text
  lower_sameName : ∀ a b, sameName a b = true → lower a = lower b
  /-- `try_into_arrow`, then `new_null_array` -/
  nullArray : KernelType → Nat → Except Text (Nested Leaf)
  nullArray_null : ∀ type length array, nullArray type length = .ok array → array.AllNull length
  /-- a list of another kind cast to `List` -/
  castList : Nested Leaf → Except Text (Nested Leaf)
  castList_cells : ∀ array list, castList array = .ok list → cells list = cells array
  /-- Arrow's own checks of an array or a batch put together -/
  checkArray : Nested Leaf → Except Text Unit
  checkBatch : Batch → Except Text Unit

section
variable {Cell : Type} (lib : Conforming Cell)

def raised {α : Type} : Except Text α → Except ConformError α
  | .ok a => .ok a
  | .error message => .error (.arrow message)

/-- An array Arrow accepts. -/
def built (array : Nested Leaf) : Except ConformError (Nested Leaf) := do
  raised (lib.checkArray array)
  return array

/-- The first name that was there before, ignoring case. -/
def firstDuplicate : List Text → List Text → Option Text
  | _, [] => none
  | seen, name :: names =>
    if lib.lower name ∈ seen then some name else firstDuplicate (lib.lower name :: seen) names

/-- The column of that very name, or the only one of that name ignoring case. -/
def matchIndex (input : List (Column Leaf)) (name : Text) : Option Nat :=
  match input.findIdx? fun c => c.name = name with
  | some i => some i
  | none =>
    match input.zipIdx.filter fun c => sameName c.1.name name with
    | [(_, i)] => some i
    | _ => none

def hasComputedValue (computed : List ComputedKey) : Bool := !computed.isEmpty

/-- The check of what the loop over the table's fields has left of the data. -/
def refuseExtra (input : List (Column Leaf)) (start : Text) (used : List Nat) :
    Except ConformError Unit :=
  let extra := input.zipIdx.filter fun c => c.2 ∉ used
  if extra.isEmpty then .ok () else .error (.extra (extra.map fun c => start ++ c.1.name))

def refuseDuplicates (input : List (Column Leaf)) (start : Text) : Except ConformError Unit :=
  match firstDuplicate lib [] (input.map (·.name)) with
  | some name => .error (.duplicate (start ++ name))
  | none => .ok ()

/-- `lossless_cast` of any array to a plain type -/
def castLeaf (array : Nested Leaf) (target : Plain) : Except CastError Leaf :=
  match array with
  | .leaf array => losslessCast lib.toCasts array (.plain target)
  | array => lib.castNested array target

/-- A leaf of the table: as it is, or cast without loss. -/
def conformLeaf (type : Primitive) (array : Nested Leaf) (path : Text) :
    Except ConformError (Nested Leaf) := do
  let target ← raised (arrowOf lib.toKernels type)
  match castLeaf lib array target with
  | .ok cast => return .leaf cast
  | .error e => throw (.cannotWrite path target e)

/-- A list of any kind as a `List`. -/
def castToList (array : Nested Leaf) (path : Text) : Except ConformError (Nested Leaf) :=
  match array with
  | .list kind offsets item nulls =>
    if kind = .list then .ok (.list kind offsets item nulls)
    else raised (lib.castList (.list kind offsets item nulls))
  | _ => .error (.mismatch path "an array".toList)

def listParts (path : Text) : Nested Leaf → Except ConformError (List Nat × Column Leaf × Nulls)
  | .list .list offsets item nulls => .ok (offsets, item, nulls)
  | _ => .error (.mismatch path "an array".toList)

mutual

/-- `conform_array` -/
def conformArray : KernelType → Nested Leaf → Text → Except ConformError (Nested Leaf)
  | .struct fields, array, path =>
    match array with
    | .struct length input nulls => do
      let start := path ++ ['.']
      refuseDuplicates lib input start
      let (columns, used) ← conformEach fields input length start []
      refuseExtra input start used
      if columns.isEmpty then return .struct length [] nulls
      else built lib (.struct length columns nulls)
    | _ => .error (.mismatch path "a struct".toList)
  | .array element _, array, path => do
    let (offsets, item, nulls) ← listParts path (← castToList lib array path)
    let values ← conformArray element item.values (path ++ "[]".toList)
    built lib (.list .list offsets { item with values := values } nulls)
  | .map key value _, array, path =>
    match array with
    | .map sorted offsets keys values _ nulls => do
      let givenKeys ← conformArray key keys.values (path ++ ".key".toList)
      let givenValues ← conformArray value values.values (path ++ ".value".toList)
      built lib (.map sorted offsets { keys with values := givenKeys }
        { values with values := givenValues } none nulls)
    | _ => .error (.mismatch path "a map".toList)
  | .primitive type, array, path => conformLeaf lib type array path
  | .variant _, array, _ => .ok array

/-- The loop over the table's fields in `conform_fields`, with the data columns used so far. -/
def conformEach : List Field → List (Column Leaf) → Nat → Text → List Nat →
    Except ConformError (List (Column Leaf) × List Nat)
  | [], _, _, _, used => .ok ([], used)
  | ⟨name, type, nullable, computed⟩ :: fields, input, length, start, used =>
    let path := start ++ name
    match (matchIndex input name).bind fun i => (input[i]?).map fun c => (i, c) with
    | some (i, column) =>
      if i ∈ used then .error (.matchesTwo column.name)
      else do
        let values ← conformArray type column.values path
        let (columns, used) ← conformEach fields input length start (used ++ [i])
        let nullable := column.nullable || values.nullCount > 0
        return ({ name := name, nullable := nullable, values := values } :: columns, used)
    | none =>
      if nullable && !hasComputedValue computed then do
        let values ← raised (lib.nullArray type length)
        let (columns, used) ← conformEach fields input length start used
        return ({ name := name, nullable := true, values := values } :: columns, used)
      else if hasComputedValue computed then .error (.computed path)
      else .error (.notNull path)

end

/-- A partition column with its NULL markers read, before the strict cast. -/
def markNulls (schema : List Field) (partitionColumns : List Text) (column : Column Leaf) :
    Except ConformError (Column Leaf) :=
  if !partitionColumns.any fun p => sameName p column.name then .ok column
  else
    match schema.find? fun f => sameName f.name column.name with
    | none => .ok column
    | some field =>
      match field.type, column.values with
      | .primitive type, .leaf array => do
        let target ← raised (arrowOf lib.toKernels type)
        return { column with values := .leaf (nullPartitionMarkers array target) }
      | .primitive type, _ => do
        let _ ← raised (arrowOf lib.toKernels type)
        return column
      | _, _ => .ok column

/-- `conform_to_table` -/
def conformToTable (batch : Batch) (schema : List Field) (partitionColumns : List Text) :
    Except ConformError Batch := do
  match partitionColumns.find? fun name => !batch.columns.any fun c => sameName c.name name with
  | some name => throw (.noPartitionColumn name)
  | none =>
    let input ← batch.columns.mapM (markNulls lib schema partitionColumns)
    refuseDuplicates lib input []
    let (columns, used) ← conformEach lib schema input batch.rows [] []
    refuseExtra input [] used
    let given : Batch := { columns := columns, rows := batch.rows }
    raised (lib.checkBatch given)
    return given

end

end DeltaSwamp.Arrow
