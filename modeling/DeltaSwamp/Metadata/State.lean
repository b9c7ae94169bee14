import DeltaSwamp.Metadata.Features

/-!
# The state a metadata change is computed against

One snapshot's protocol and metadata, the change an operation returns, and what
the operations of `engine/metadata.py` share: properties, column paths, and
the columns an expression mentions.
-/

namespace DeltaSwamp.Metadata

open List

/-- Table properties: one value for a key. -/
abbrev Config := List (String × String)

namespace Config

def get (config : Config) (key : String) : Option String := config.lookup key

/-- `config[key] = value`: in place where the key is there. -/
def set (config : Config) (key value : String) : Config :=
  if config.any fun e => e.1 = key then
    config.map fun e => if e.1 = key then (key, value) else e
  else config ++ [(key, value)]

def remove (config : Config) (key : String) : Config := config.filter fun e => e.1 ≠ key

@[simp] theorem get_nil (key : String) : get [] key = none := rfl

theorem get_cons (k v : String) (config : Config) (key : String) :
    get ((k, v) :: config) key = if key = k then some v else get config key := by
  rw [get, lookup_cons]
  by_cases h : key = k
  · simp [h]
  · simp [beq_false_of_ne h, h, get]

theorem get_eq_none_iff (config : Config) (key : String) :
    config.get key = none ↔ ∀ e ∈ config, e.1 ≠ key := by
  induction config with
  | nil => simp
  | cons e config ih =>
    obtain ⟨k, v⟩ := e
    rw [get_cons]
    by_cases h : key = k
    · simp [h]
    · simp [h, ih, Ne.symm h]

theorem get_set (config : Config) (key value key' : String) :
    (config.set key value).get key' = if key' = key then some value else config.get key' := by
  unfold set
  split_ifs with hany hkey hkey
  · subst hkey
    induction config with
    | nil => simp at hany
    | cons e config ih =>
      obtain ⟨k, v⟩ := e
      by_cases hk : k = key'
      · simp [get_cons, hk]
      · have hrest : (config.any fun e => e.1 = key') = true := by simpa [hk] using hany
        simp [get_cons, hk, Ne.symm hk, ih hrest]
  · clear hany
    induction config with
    | nil => rfl
    | cons e config ih =>
      obtain ⟨k, v⟩ := e
      by_cases hk : k = key
      · simp [get_cons, hk, hkey, ih]
      · simp [get_cons, hk, ih]
  · subst hkey
    induction config with
    | nil => simp [get_cons]
    | cons e config ih =>
      obtain ⟨k, v⟩ := e
      simp only [any_cons, Bool.or_eq_true, decide_eq_true_eq, not_or] at hany
      simp [get_cons, Ne.symm hany.1, ih hany.2]
  · clear hany
    induction config with
    | nil => simp [get_cons, hkey]
    | cons e config ih =>
      obtain ⟨k, v⟩ := e
      simp [get_cons, ih]

theorem get_remove (config : Config) (key key' : String) :
    (config.remove key).get key' = if key' = key then none else config.get key' := by
  induction config with
  | nil => simp [remove]
  | cons e config ih =>
    obtain ⟨k, v⟩ := e
    unfold remove at ih ⊢
    by_cases hk : k = key
    · rw [filter_cons_of_neg (by simp [hk]), ih]
      split_ifs with hkey
      · rfl
      · rw [get_cons, if_neg (hk ▸ hkey)]
    · rw [filter_cons_of_pos (by simpa using hk), get_cons, get_cons, ih]
      by_cases hkey : key' = k
      · rw [if_pos hkey, if_pos hkey, if_neg (hkey ▸ hk)]
      · rw [if_neg hkey, if_neg hkey]

end Config

structure TableMetadata where
  schema : DataType
  partitionColumns : List String
  configuration : Config
  deriving DecidableEq

/-- One snapshot's protocol and metadata. -/
structure TableState where
  version : Int
  protocol : Protocol
  metadata : TableMetadata
  /-- The keys of the `delta.clustering` domain, when the table has one. -/
  clustering : Option (List (List String))
  deriving DecidableEq

def TableState.schema (state : TableState) : DataType := state.metadata.schema

def TableState.configuration (state : TableState) : Config := state.metadata.configuration

/-- The result of a metadata operation. -/
structure Change where
  protocol : Option Protocol
  metadata : Option TableMetadata
  /-- The clustering domain it writes. -/
  clustering : Option (List (List String))
  deriving DecidableEq

/-- A change that commits nothing. -/
def Change.nothing : Change := ⟨none, none, none⟩

/-- The state once the change is committed; one that changes nothing is not. -/
def TableState.apply (state : TableState) (change : Change) : TableState where
  version := if change = .nothing then state.version else state.version + 1
  protocol := change.protocol.getD state.protocol
  metadata := change.metadata.getD state.metadata
  clustering := change.clustering <|> state.clustering

section
variable {state : TableState} {change : Change} {metadata : TableMetadata}

theorem schema_apply (h : change.metadata = some metadata) :
    (state.apply change).schema = metadata.schema := by
  rw [TableState.schema, TableState.apply, h]
  rfl

theorem configuration_apply (h : change.metadata = some metadata) :
    (state.apply change).configuration = metadata.configuration := by
  rw [TableState.configuration, TableState.apply, h]
  rfl

theorem schema_apply_none (h : change.metadata = none) :
    (state.apply change).schema = state.schema := by
  rw [TableState.schema, TableState.apply, h]
  rfl

theorem configuration_apply_none (h : change.metadata = none) :
    (state.apply change).configuration = state.configuration := by
  rw [TableState.configuration, TableState.apply, h]
  rfl

end

/-- What Python knows of characters and of numbers as text. -/
structure Python where
  /-- `str.lower`. -/
  lower : String → String
  /-- `str.isspace`, of one character. -/
  isSpace : Char → Bool
  /-- The value of a decimal digit. -/
  digit : Char → Option Nat
  /-- `re.IGNORECASE`: a pattern's character and one of the text. -/
  sameLetter : Char → Char → Bool
  /-- `int()` on a JSON value; `none` where it raises. -/
  int : Json → Option Int
  /-- `str()` of a whole number. -/
  str : Int → String
  /-- ASCII text without capitals is in lower case as it is. -/
  lower_ascii : ∀ text : String, (text.toList.all fun c => c.toNat < 128 && !c.isUpper) = true →
    lower text = text
  isSpace_alpha : ∀ c : Char, c.isAlpha = true → isSpace c = false
  int_int : ∀ n, int (.int n) = some n
  int_str : ∀ n, int (.str (str n)) = some n
  str_ne : ∀ n, str n ≠ ""

def cmMax : String := "delta.columnMapping.maxColumnId"

def cmMode : String := "delta.columnMapping.mode"

section
variable (py : Python)

/-- `str.strip`. -/
def strip (text : String) : String :=
  String.ofList (((text.toList.dropWhile py.isSpace).reverse.dropWhile py.isSpace).reverse)

def columnMappingMode (config : Config) : String := py.lower ((config.get cmMode).getD "none")

def TableState.columnMappingMode (state : TableState) : String :=
  DeltaSwamp.Metadata.columnMappingMode py state.configuration

/-- Whether columns are mapped. -/
def mapped (config : Config) : Bool :=
  columnMappingMode py config = "name" || columnMappingMode py config = "id"

/-- Why an operation raises, with what its message names. -/
inductive Refused where
  | noColumn (path : List String)
  | notStruct (path : List String)
  | emptyPath
  /-- `InvalidReferenceError`. -/
  | badReference (text : String)
  | notField
  | notDeltaType (where' : String)
  | decimalRange (where' : String)
  | noFields (where' : String)
  | badNullable (where' : String)
  | emptyName
  | duplicateName (name : String)
  | invalidName (name : String)
  | columnExists (name : String)
  | notNullColumn (name : String)
  | changeFeedReserved (name : String)
  | generatedColumn (name : String)
  | defaultWithoutFeature (name : String)
  | noColumnMapping
  | noColumnMappingFeature
  | partitionColumn (name : String)
  | lastColumn (name : String)
  | lastDataColumn (name : String)
  | clusteringColumn (name : String)
  | referenced (name : String) (dependents : List String)
  | movedColumn (name : String)
  | sameName (name : String)
  | wideningDisabled (name : String)
  | notWidening (name : String)
  | widenNested (name : String)
  | noArrowType (name : String)
  | badConstraintName
  | constraintExists (name : String)
  | partitioned
  | tooManyKeys
  | notPrimitive (name : String)
  | noStatistics (name : String)
  | listedTwice (name : String)
  | badProperty (key : String)
  | notAddable (feature : String)
  | mappingChange (current mode : String)
  | noSuchProperty (key : String)
  | catalogTimestamps
  /-- What `int()` raises. -/
  | badNumber
  deriving DecidableEq

def backtick : Char := Char.ofNat 96

/-- Outside the quotes, whitespace around a part is dropped. -/
def finishPart (buf : List (Char × Bool)) : String :=
  let blank := fun c : Char × Bool => !c.2 && py.isSpace c.1
  String.ofList ((((buf.dropWhile blank).reverse.dropWhile blank).reverse).map Prod.fst)

/-- The parts of an identifier: a character in `buf` came from inside the quotes or not. -/
def splitLoop (inQuotes : Bool) (buf : List (Char × Bool)) : List Char → Option (List String)
  | [] => if inQuotes then none else some [finishPart py buf]
  | ch :: rest =>
    if inQuotes then
      if ch = backtick then
        match rest with
        | next :: rest' =>
          if next = backtick then splitLoop true (buf ++ [(backtick, true)]) rest'
          else splitLoop false buf (next :: rest')
        | [] => splitLoop false buf []
      else splitLoop true (buf ++ [(ch, true)]) rest
    else if ch = backtick then splitLoop true buf rest
    else if ch = '.' then (splitLoop false [] rest).map fun parts => finishPart py buf :: parts
    else splitLoop false (buf ++ [(ch, false)]) rest

/-- `split_identifier`. -/
def splitIdentifier (name : String) : Except Refused (List String) :=
  match splitLoop py false [] name.toList with
  | none => .error (.badReference name)
  | some parts => if "" ∈ parts then .error (.badReference name) else .ok parts

/-- A column found by its path. -/
structure Found where
  position : Position
  container : List Field
  index : Nat
  target : Field

/-- `_find`: case-insensitive. -/
def find : List Field → List String → Except Refused Found
  | _, [] => .error .emptyPath
  | fields, name :: rest =>
    match fields.zipIdx.find? fun e => py.lower e.1.name = py.lower name with
    | none => .error (.noColumn [name])
    | some (f, i) =>
      if rest = [] then .ok ⟨[.field i], fields, i, f⟩
      else
        match f.type with
        | .struct child =>
          (find child rest).map fun r => { r with position := .field i :: r.position }
        | _ => .error (.notStruct [name])

/-- `_physical_path`; the empty list beyond a path that is not there. -/
def physicalPath : List Field → List String → List String
  | _, [] => []
  | fields, name :: rest =>
    match fields.find? fun f => py.lower f.name = py.lower name with
    | none => []
    | some f => physicalName f :: physicalPath f.type.fields rest

/-- `[A-Za-z0-9_]` under `re.IGNORECASE`. -/
def wordChar (c : Char) : Bool :=
  c.isAlphanum || c = '_' || c.toNat = 0x130 || c.toNat = 0x131 || c.toNat = 0x17F ||
    c.toNat = 0x212A

/-- What follows `name` at the start of the text, letter case aside. -/
def dropName : List Char → List Char → Option (List Char)
  | [], text => some text
  | c :: name, d :: text => if py.sameLetter c d then dropName name text else none
  | _ :: _, [] => none

def endsWord (text : List Char) : Bool := !text.head?.any wordChar

/-- The pattern after its look-behind, matched at the start of the text. -/
def mentionHere (name text : List Char) : Bool :=
  let afterName := fun text : List Char => (dropName py name text).any fun rest =>
    endsWord rest || (rest.head? = some backtick && endsWord rest.tail)
  afterName text || (text.head? = some backtick && afterName text.tail)

/-- `re.search`, with the character to the left. -/
def mentions (name : List Char) (left : Option Char) : List Char → Bool
  | [] => !left.any (fun c => wordChar c || c = backtick) && mentionHere py name []
  | c :: text =>
    (!left.any (fun c => wordChar c || c = backtick) && mentionHere py name (c :: text)) ||
      mentions name (some c) text

/-- Whether a SQL expression mentions `name` as an identifier. Conservative. -/
def references (expression name : String) : Bool :=
  mentions py name.toList none expression.toList

/-- `str.removeprefix`, of a text that starts so. -/
def dropStart (text start : String) : String := String.ofList (text.toList.drop start.length)

def constraintsPrefix : String := "delta.constraints."

def statsColumns : String := "delta.dataSkippingStatsColumns"

def numIndexed : String := "delta.dataSkippingNumIndexedCols"

def generation : String := "delta.generationExpression"

/-- `_dependents`: constraints, stats settings and generated columns that mention `name`. -/
def dependents (state : TableState) (name : String) : List String :=
  (state.configuration.flatMap fun e =>
    (if startsWith e.1 constraintsPrefix && references py e.2 name then
      ["CHECK constraint " ++ dropStart e.1 constraintsPrefix] else []) ++
    (if e.1 = statsColumns && references py e.2 name then [statsColumns] else [])) ++
  state.schema.walk.flatMap fun f =>
    match f.metadata.lookup generation with
    | some (.str expression) =>
      if references py expression name then ["generated column " ++ f.name] else []
    | _ => []

end

/-- `_clustering_columns`. -/
def clusteringColumns (state : TableState) : List (List String) := state.clustering.getD []

/-- `str()` of a whole number, by its characters. -/
def shown : Int → List Char
  | .ofNat n => Nat.toDigits 10 n
  | .negSucc n => '-' :: Nat.toDigits 10 (n + 1)

def readDigitsOf (digits : List Char) : Option Nat :=
  if digits ≠ [] ∧ digits.all Char.isDigit then some (Nat.ofDigitChars 10 digits 0) else none

/-- `int()` of text without blanks or underscores. -/
def readInt : List Char → Option Int
  | '-' :: digits => (readDigitsOf digits).map fun n => -n
  | digits => (readDigitsOf digits).map fun n => n

theorem readDigitsOf_toDigits (n : Nat) : readDigitsOf (Nat.toDigits 10 n) = some n := by
  have hdigits : (Nat.toDigits 10 n).all Char.isDigit = true := by
    rw [all_eq_true]
    intro c hc
    exact Nat.isDigit_of_mem_toDigits (by decide) (by decide) hc
  rw [readDigitsOf, if_pos ⟨Nat.toDigits_ne_nil, hdigits⟩,
    Nat.ofDigitChars_toDigits (by decide) (by decide)]

theorem readInt_shown (n : Int) : readInt (shown n) = some n := by
  cases n with
  | ofNat n =>
    rw [shown, readInt]
    · rw [readDigitsOf_toDigits]
      rfl
    · intro digits heq
      have hmem : '-' ∈ Nat.toDigits 10 n := heq ▸ mem_cons_self
      have hdigit := Nat.isDigit_of_mem_toDigits (by decide) (by decide) hmem
      exact absurd hdigit (by decide)
  | negSucc n =>
    rw [shown, readInt, readDigitsOf_toDigits]
    simp [Int.negSucc_eq]

def ascii : Python where
  lower text := String.ofList (text.toList.map Char.toLower)
  isSpace c := c.isWhitespace
  digit c := if c.isDigit then some (c.toNat - 48) else none
  sameLetter a b := a.toLower = b.toLower
  int
    | .int n => some n
    | .str text => readInt text.toList
    | _ => none
  str n := String.ofList (shown n)
  lower_ascii text h := by
    have hsame : text.toList.map Char.toLower = text.toList := by
      refine (map_congr_left fun c hc => ?_).trans (map_id' _)
      have hchar := all_eq_true.mp h c hc
      rw [Bool.and_eq_true, Bool.not_eq_true'] at hchar
      have hupper : ¬ (c.val ≥ 'A'.val ∧ c.val ≤ 'Z'.val) := of_decide_eq_false hchar.2
      exact dif_neg hupper
    rw [hsame, String.ofList_toList]
  isSpace_alpha c h := by
    rw [Bool.eq_false_iff]
    intro hspace
    simp only [Char.isWhitespace, Bool.or_eq_true, decide_eq_true_eq] at hspace
    rcases hspace with ((rfl | rfl) | rfl) | rfl
    · exact absurd h (by decide)
    · exact absurd h (by decide)
    · exact absurd h (by decide)
    · exact absurd h (by decide)
  int_int _ := rfl
  int_str n := by
    change readInt (String.ofList (shown n)).toList = some n
    rw [String.toList_ofList]
    exact readInt_shown n
  str_ne n := by
    intro heq
    have hlist := congrArg String.toList heq
    rw [String.toList_ofList] at hlist
    cases n with
    | ofNat n => exact Nat.toDigits_ne_nil hlist
    | negSucc n => simp [shown] at hlist

end DeltaSwamp.Metadata
