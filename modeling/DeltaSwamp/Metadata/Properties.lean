import DeltaSwamp.Metadata.Columns

/-!
# Setting and unsetting table properties

`_canonical_key`, `_normalise_value`, `set_properties`, `unset_properties`,
`add_feature` and `add_constraints` of `engine/metadata.py`.

`_leaf_paths`, `_has_stats`, `_logical_path`, `_check_clustering_stats` and
`cluster_by` of `engine/metadata.py`.
-/

namespace DeltaSwamp.Metadata

section
variable (py : Python)

mutual

/-- `_leaf_paths`: logical leaf column paths in schema order. -/
def leafPaths (outer : List String) : List Field → List (List String)
  | [] => []
  | ⟨name, type, _, _⟩ :: fs => leavesOf (outer ++ [py.lower name]) type ++ leafPaths outer fs

def leavesOf (path : List String) : DataType → List (List String)
  | .struct fields => leafPaths path fields
  | .primitive _ | .array _ _ | .map _ _ _ => [path]

end

/-- `str.split(",")`. -/
def splitCommas : List Char → List (List Char)
  | [] => [[]]
  | c :: rest =>
    match splitCommas rest with
    | [] => []
    | part :: parts => if c = ',' then [] :: part :: parts else (c :: part) :: parts

/-- Whether an entry of `delta.dataSkippingStatsColumns` covers the column. -/
def listedIn (wanted : List String) : List String → Except Refused Bool
  | [] => .ok false
  | entry :: entries =>
    let entry := strip py entry
    if entry = "" then listedIn wanted entries
    else do
      let parts ← splitIdentifier py entry
      if (parts.map py.lower).isPrefixOf wanted then return true
      listedIn wanted entries

/-- The entries of a comma-separated setting. -/
def entries (listed : String) : List String := (splitCommas listed.toList).map String.ofList

/-- Whether writers collect min/max statistics for a column. -/
def hasStats (schema : DataType) (path : List String) (config : Config) : Except Refused Bool :=
  let wanted := path.map py.lower
  match (config.get statsColumns).filter (· ≠ "") with
  | some listed => listedIn py wanted (entries listed)
  | none =>
    match py.int (.str ((config.get numIndexed).getD "32")) with
    | none => .ok true
    | some limit =>
      if limit < 0 then .ok true
      else .ok (decide (wanted ∈ (leafPaths py [] schema.fields).take limit.toNat))

/-- `_logical_path`: the logical names along a physical path, or none if it is gone. -/
def logicalPath : List Field → List String → Option (List String)
  | _, [] => some []
  | fields, part :: rest =>
    match fields.find? fun f => physicalName f = part with
    | none => none
    | some f =>
      if rest = [] then some [f.name]
      else
        match f.type with
        | .struct child => (logicalPath child rest).map fun names => f.name :: names
        | _ => none

/-- Refuse a stats setting that leaves a clustering key without statistics. -/
def checkClusteringStats (state : TableState) (configuration : Config) : Except Refused Unit :=
  let same := fun key => state.configuration.get key = configuration.get key
  if same numIndexed ∧ same statsColumns then .ok ()
  else (clusteringColumns state).forM fun physical =>
    match logicalPath state.schema.fields physical with
    | none => .ok ()
    | some logical => do
      if !(← hasStats py state.schema logical configuration) then
        .error (.noStatistics (".".intercalate logical))

/-- `_CLUSTERABLE`. -/
def clusterable (type : String) : Bool :=
  (["byte", "short", "integer", "long", "float", "double", "date", "timestamp", "timestamp_ntz",
    "string"].any (· = type)) || (decimalOf py type).isSome

/-- The physical names along a key's path, which leads to a primitive column. -/
def clusterKey : List Field → List String → Except Refused (List String)
  | _, [] => .ok []
  | fields, name :: rest =>
    match fields.find? fun f => py.lower f.name = py.lower name with
    | none => .error (.noColumn [name])
    | some f =>
      if rest = [] then
        match f.type with
        | .primitive type =>
          if clusterable py type then .ok [physicalName f] else .error (.notPrimitive name)
        | _ => .error (.notPrimitive name)
      else
        match f.type with
        | .struct child => (clusterKey child rest).map fun names => physicalName f :: names
        | _ => .error (.notStruct [name])

/-- The keys `cluster_by` is given, `seen` those before, by their physical names' letters. -/
def clusterKeys (state : TableState) (seen : List (List String)) :
    List String → Except Refused (List (List String))
  | [] => .ok []
  | column :: columns => do
    let path ← splitIdentifier py column
    let names ← clusterKey py state.schema.fields path
    if names.map py.lower ∈ seen then .error (.listedTwice column)
    if !(← hasStats py state.schema path state.configuration) then .error (.noStatistics column)
    let rest ← clusterKeys state (names.map py.lower :: seen) columns
    return names :: rest

/-- `cluster_by`, of a list of columns. -/
def clusterBy (state : TableState) (columns : List String) : Except Refused Change := do
  if state.metadata.partitionColumns ≠ [] then .error .partitioned
  if 4 < columns.length then .error .tooManyKeys
  let physical ← clusterKeys py state [] columns
  if state.clustering = none ∧ physical = [] then return .nothing
  if state.clustering ≠ none ∧ physical = clusteringColumns state then return .nothing
  return {
    protocol := withFeatures state.protocol ["clustering", "domainMetadata"]
    metadata := none
    clustering := some physical }

end

/-- `_KNOWN_KEYS`. -/
def knownKeys : List String :=
  ["delta.appendOnly", "delta.autoOptimize.autoCompact", "delta.autoOptimize.optimizeWrite",
    "delta.checkpoint.writeStatsAsJson", "delta.checkpoint.writeStatsAsStruct",
    "delta.checkpointInterval", "delta.checkpointPolicy", "delta.checkpointRetentionDuration",
    "delta.columnMapping.mode", "delta.compatibility.symlinkFormatManifest.enabled",
    "delta.dataSkippingNumIndexedCols", "delta.dataSkippingStatsColumns",
    "delta.deletedFileRetentionDuration", "delta.enableChangeDataFeed",
    "delta.enableDeletionVectors", "delta.enableExpiredLogCleanup",
    "delta.enableInCommitTimestamps", "delta.enableTypeWidening", "delta.isolationLevel",
    "delta.logRetentionDuration", "delta.parquet.compression.codec", "delta.randomPrefixLength",
    "delta.randomizeFilePrefixes", "delta.setTransactionRetentionDuration",
    "delta.targetFileSize", "delta.tuneFileSizesForRewrites"]

/-- `_BOOLEAN_KEYS`. -/
def booleanKeys : List String :=
  ["delta.appendOnly", "delta.autoOptimize.autoCompact", "delta.autoOptimize.optimizeWrite",
    "delta.checkpoint.writeStatsAsJson", "delta.checkpoint.writeStatsAsStruct",
    "delta.compatibility.symlinkFormatManifest.enabled", "delta.enableChangeDataFeed",
    "delta.enableDeletionVectors", "delta.enableExpiredLogCleanup",
    "delta.enableInCommitTimestamps", "delta.enableTypeWidening", "delta.randomizeFilePrefixes",
    "delta.tuneFileSizesForRewrites", "delta.enableRowTracking"]

/-- `_INTEGER_KEYS`: the smallest value each accepts. -/
def integerKeys : List (String × Int) :=
  [("delta.checkpointInterval", 1), ("delta.dataSkippingNumIndexedCols", -1),
    ("delta.randomPrefixLength", 1)]

/-- `_DURATION_KEYS`. -/
def durationKeys : List String :=
  ["delta.checkpointRetentionDuration", "delta.deletedFileRetentionDuration",
    "delta.logRetentionDuration", "delta.setTransactionRetentionDuration"]

/-- `_ENABLING`: properties whose true value turns on a feature. -/
def enabling : List (String × String) :=
  [("delta.appendOnly", "appendOnly"), ("delta.enableChangeDataFeed", "changeDataFeed"),
    ("delta.enableDeletionVectors", "deletionVectors"),
    ("delta.enableTypeWidening", "typeWidening"),
    ("delta.enableInCommitTimestamps", "inCommitTimestamp")]

/-- `_ADDABLE_FEATURES`. -/
def addableFeatures : List String :=
  ["appendOnly", "invariants", "checkConstraints", "changeDataFeed", "deletionVectors",
    "domainMetadata", "timestampNtz", "typeWidening", "v2Checkpoint", "vacuumProtocolCheck",
    "variantType", "inCommitTimestamp", "allowColumnDefaults"]

/-- `_NOT_ADDABLE`. -/
def notAddable : List String :=
  ["rowTracking", "catalogManaged", "clustering", "icebergCompatV1", "icebergCompatV2",
    "icebergCompatV3", "identityColumns", "generatedColumns"]

/-- `_CANONICAL_KEYS`. -/
def canonicalKeys : List String :=
  knownKeys ++ ["delta.enableRowTracking", "delta.minReaderVersion", "delta.minWriterVersion",
    "delta.columnMapping.maxColumnId", "delta.inCommitTimestampEnablementVersion",
    "delta.inCommitTimestampEnablementTimestamp"]

def featurePrefix : String := "delta.feature."

/-- A property value as a caller gives it. -/
inductive RawValue where
  | none
  | bool (b : Bool)
  | text (s : String)
  deriving DecidableEq

/-- `str()` of it. -/
def RawValue.str : RawValue → String
  | .none => "None"
  | .bool b => if b then "True" else "False"
  | .text s => s

section
variable (py : Python)

def canonicalKey (key : String) : String :=
  let lowered := py.lower key
  match canonicalKeys.find? fun k => py.lower k = lowered with
  | some k => k
  | none =>
    if startsWith lowered featurePrefix then featurePrefix ++ dropStart key featurePrefix
    else if startsWith lowered constraintsPrefix then
      constraintsPrefix ++ dropStart key constraintsPrefix
    else key

def canonicalFeature (name : String) : String :=
  ((TableFeature.all.map TableFeature.value).find? fun v => py.lower v = py.lower name).getD name

/-- `(?:nanosecond|...|week)s?` to the end of the text. -/
def intervalUnit (text : List Char) : Bool :=
  ["nanosecond", "microsecond", "millisecond", "second", "minute", "hour", "day", "week"].any
    fun unit => match dropName py unit.toList text with
      | some [] => true
      | some [c] => py.sameLetter 's' c
      | _ => false

/-- `_INTERVAL.fullmatch`: the number and the unit. -/
def intervalOf (text : List Char) : Option (Nat × String) := do
  let body := match dropName py "interval".toList text with
    | some (c :: rest) => if py.isSpace c then rest.dropWhile py.isSpace else text
    | _ => text
  let (number, rest) ← readNumber py body
  let unit := rest.dropWhile py.isSpace
  if intervalUnit py unit then some (number, String.ofList unit) else none

/-- `_FILE_SIZE.fullmatch`. -/
def isFileSize (text : List Char) : Bool :=
  match readNumber py text with
  | none => false
  | some (_, rest) =>
    let unit := rest.dropWhile py.isSpace
    unit = [] || ["b", "k", "kb", "m", "mb", "g", "gb"].any fun u =>
      dropName py u.toList unit = some []

def codecs : List String :=
  ["uncompressed", "none", "snappy", "gzip", "lzo", "brotli", "lz4", "lz4_raw", "zstd"]

/-- Every entry of a stats list names a column. -/
def checkEntries (schema : DataType) : List String → Except Refused Unit
  | [] => .ok ()
  | entry :: rest => do
    if strip py entry ≠ "" then
      let path ← splitIdentifier py (strip py entry)
      let _ ← find py schema.fields path
    checkEntries schema rest

/-- `_normalise_value`. -/
def normaliseValue (key : String) (raw : RawValue) (schema : DataType) : Except Refused String :=
  let value := match raw with
    | .bool _ => py.lower raw.str
    | _ => raw.str
  let stripped := strip py value
  let lowered := py.lower stripped
  if raw = .none then .error (.badProperty key)
  else if key ∈ booleanKeys then
    if lowered = "true" ∨ lowered = "false" then .ok lowered else .error (.badProperty key)
  else
    match integerKeys.lookup key with
    | some least =>
      match py.int (.str stripped) with
      | some number => if number < least then .error (.badProperty key) else .ok (py.str number)
      | none => .error (.badProperty key)
    | none =>
      if key ∈ durationKeys then
        match intervalOf py stripped.toList with
        | some (number, unit) =>
          let unit := py.lower unit
          .ok s!"interval {number} {unit}"
        | none => .error (.badProperty key)
      else if key = "delta.targetFileSize" then
        if isFileSize py stripped.toList then .ok stripped else .error (.badProperty key)
      else if key = "delta.isolationLevel" then
        if lowered = "serializable" then .ok "Serializable"
        else if lowered = "writeserializable" then .ok "WriteSerializable"
        else .error (.badProperty key)
      else if key = "delta.parquet.compression.codec" then
        if lowered ∈ codecs then .ok lowered else .error (.badProperty key)
      else if key = "delta.checkpointPolicy" then
        if lowered = "classic" ∨ lowered = "v2" then .ok lowered else .error (.badProperty key)
      else if key = cmMode then .ok lowered
      else if key = statsColumns then
        (checkEntries py schema (entries stripped)).map fun _ => stripped
      else .ok value

/-- What the loop of `set_properties` has come to. -/
structure Settings where
  configuration : Config
  features : List String
  /-- The schema with ids assigned, once mapping is enabled. -/
  schema : Option DataType
  deriving DecidableEq

/-- `_enable_column_mapping`: the schema it returns, and the configuration it leaves. -/
def enableColumnMapping (state : TableState) (mode : String) (configuration : Config) :
    Except Refused (Option DataType × Config) :=
  let current := state.columnMappingMode py
  if mode = current then .ok (none, configuration)
  else if mode ≠ "none" ∧ mode ≠ "name" ∧ mode ≠ "id" then .error (.badProperty cmMode)
  else if current ≠ "none" ∨ mode ≠ "name" then .error (.mappingChange current mode)
  else
    let r := assignIds (fun name _ => name) state.schema.fields 1
    .ok (some (.struct r.1), configuration.set cmMax (py.str (r.2 - 1)))

/-- The feature a `delta.feature.` key asks for. -/
def featureOf (key : String) (raw : RawValue) : Except Refused String := do
  let name := canonicalFeature py (dropStart key featurePrefix)
  if raw = .none || (py.lower raw.str ≠ "supported" && py.lower raw.str ≠ "enabled") then
    .error (.badProperty key)
  if name ∈ notAddable then .error (.notAddable name)
  if name ∉ addableFeatures then .error (.notAddable name)
  return name

def inCommit : String := "delta.enableInCommitTimestamps"

/-- One property whose key sets a value. -/
def setValue (state : TableState) (key : String) (raw : RawValue) (s : Settings) :
    Except Refused Settings := do
  if key = "delta.enableRowTracking" && py.lower raw.str = "true" then .error (.badProperty key)
  if startsWith (py.lower key) "delta.enableicebergcompat" ||
      startsWith (py.lower key) "delta.universalformat" then .error (.badProperty key)
  if startsWith key "delta." && key ∉ knownKeys && key ≠ "delta.enableRowTracking" then
    .error (.badProperty key)
  let value ← normaliseValue py key raw state.schema
  let lowered := py.lower value
  let enabled := if lowered = "true" then (enabling.lookup key).toList else []
  if key = "delta.enableChangeDataFeed" && lowered = "true" &&
      state.schema.fields.any (fun f => py.lower f.name ∈ cdfReserved) then
    .error (.changeFeedReserved key)
  let policy := if key = "delta.checkpointPolicy" && lowered = "v2" then ["v2Checkpoint"] else []
  let mapping ← if key = cmMode then enableColumnMapping py state lowered s.configuration
    else .ok (s.schema, s.configuration)
  let mapping' := if key = cmMode && lowered ≠ "none" then ["columnMapping"] else []
  let stamped :=
    if key = inCommit && lowered = "true" &&
        py.lower ((state.configuration.get key).getD "false") ≠ "true" then
      (mapping.2.set "delta.inCommitTimestampEnablementVersion" (py.str (state.version + 1))).set
        "delta.inCommitTimestampEnablementTimestamp" "__ICT__"
    else mapping.2
  return ⟨stamped.set key value, s.features ++ enabled ++ policy ++ mapping', mapping.1⟩

/-- One property of the loop. -/
def setProperty (state : TableState) (s : Settings) (property : String × RawValue) :
    Except Refused Settings :=
  let key := canonicalKey py property.1
  if key = "delta.minReaderVersion" ∨ key = "delta.minWriterVersion" then
    .error (.badProperty key)
  else if startsWith key constraintsPrefix then .error (.badProperty key)
  else if startsWith key featurePrefix then
    (featureOf py key property.2).map fun name => { s with features := s.features ++ [name] }
  else setValue py state key property.2 s

/-- Two configurations with the same values. -/
def sameConfig (a b : Config) : Bool :=
  (a.all fun e => b.get e.1 = a.get e.1) && b.all fun e => b.get e.1 = a.get e.1

/-- `_if_changed`. -/
def ifChanged (state : TableState) (metadata : TableMetadata) : Option TableMetadata :=
  if metadata.schema = state.schema &&
      metadata.partitionColumns = state.metadata.partitionColumns &&
      sameConfig metadata.configuration state.configuration then none
  else some metadata

def setProperties (state : TableState) (properties : List (String × RawValue)) :
    Except Refused Change := do
  let s ← properties.foldlM (setProperty py state) ⟨state.configuration, [], none⟩
  checkClusteringStats py state s.configuration
  return {
    protocol := protocolFor state.protocol s.features
    metadata := ifChanged state { state.metadata with
      schema := s.schema.getD state.schema
      configuration := s.configuration }
    clustering := none }

def addFeature (state : TableState) (feature : String) : Except Refused Change :=
  setProperties py state [(featurePrefix ++ feature, .text "supported")]

/-- The loop of `unset_properties`: the configuration left and the keys removed. -/
def unsetKeys (ifExists : Bool) (configuration : Config) (removed : List String) :
    List String → Except Refused (Config × List String)
  | [] => .ok (configuration, removed)
  | rawKey :: keys =>
    let key := canonicalKey py rawKey
    if startsWith key featurePrefix ∨ key = cmMode ∨ key = cmMax then .error (.badProperty key)
    else if startsWith key "delta.inCommitTimestampEnablement" then .error (.badProperty key)
    else if startsWith (py.lower key) "delta.rowtracking." then .error (.badProperty key)
    else if configuration.get key = none then
      if ifExists then unsetKeys ifExists configuration removed keys
      else .error (.noSuchProperty key)
    else unsetKeys ifExists (configuration.remove key) (removed ++ [key]) keys

def unsetProperties (state : TableState) (keys : List String) (ifExists : Bool) :
    Except Refused Change := do
  let r ← unsetKeys py ifExists state.configuration [] keys
  if r.2 = [] then return .nothing
  checkClusteringStats py state r.1
  return {
    protocol := none
    metadata := some { state.metadata with configuration := r.1 }
    clustering := none }

/-- The constraints to add, each under its key. -/
def newConstraints (existing : List String) (added : Config) :
    List (String × String) → Except Refused Config
  | [] => .ok added
  | (name, expression) :: rest =>
    let key := constraintsPrefix ++ py.lower name
    if strip py name = "" then .error .badConstraintName
    else if key ∈ existing ∨ added.any (fun e => e.1 = key) then .error (.constraintExists name)
    else newConstraints existing (added ++ [(key, expression)]) rest

def addConstraints (state : TableState) (constraints : List (String × String)) :
    Except Refused Change := do
  let existing := state.configuration.map fun e => py.lower e.1
  let added ← newConstraints py existing [] constraints
  if added = [] then return .nothing
  let writer := state.protocol.minWriterVersion
  return {
    protocol :=
      if 7 ≤ writer then withFeatures state.protocol ["checkConstraints"]
      else if writer < 3 then some { state.protocol with minWriterVersion := 3 }
      else none
    metadata := some { state.metadata with
      configuration := added.foldl (fun config e => config.set e.1 e.2) state.configuration }
    clustering := none }

end

end DeltaSwamp.Metadata
