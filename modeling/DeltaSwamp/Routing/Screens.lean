import DeltaSwamp.Routing.Table

/-!
# What keeps one engine from a request

The screens of the routing loop: operation and feature blockers, changes that
would leave no local engine able to write, and files in Spark's legacy
calendar.
-/

namespace DeltaSwamp.Routing

open Metadata (TableFeature sortedNames)

variable (S : Str) (nativeHas : String → Bool)

def EngineKind.direct : EngineKind → Bool
  | .kernel | .deltars => true
  | _ => false

def join (separator : String) (texts : List String) : String := separator.intercalate texts

def commaJoin (names : List String) : String := join ", " names

/-- Whether the kernel may not write the feature into a table's log. -/
def unwritableLog (exempt : List TableFeature) (name : String) : Bool :=
  match TableFeature.fromWire name with
  | none => true
  | some feature =>
    decide (feature ∉ exempt) &&
      (decide (kernelWrite feature = .no) || decide (feature = .checkConstraints))

/-- The kernel's part of `_operation_blocker`: operations that write to the log alone. -/
def kernelLogBlocker (table : ResolvedTable) (engine : Engine) : Option String :=
  let exempt := if engine.checkpointsPastValueConstraints = some true then valueConstraintFeatures
    else []
  let writer := table.minWriterVersion.getD 0
  let unwritable := sortedNames (table.writerFeatures.filter (unwritableLog exempt))
  if 3 ≤ writer ∧ writer ≤ 6 ∧ exempt = [] then
    some ("the table uses the legacy writer protocol version " ++ toString writer ++
      ", which implies checkConstraints, and the kernel refuses to write its log")
  else if unwritable ≠ [] then
    some ("the kernel cannot write the log of a table with " ++ commaJoin unwritable)
  else if .invariants ∉ exempt ∧ (writer = 2 ∨ "invariants" ∈ table.writerFeatures) ∧
      (engine.hasInvariants.any fun check => (check table).toOption.getD false) then
    some "the table schema declares column invariants, which the kernel refuses"
  else none

/-- `_operation_blocker`. -/
def operationBlocker (kind : EngineKind) (operation : Operation) (table : ResolvedTable)
    (engine : Engine) : Option String :=
  if kind.direct ∧ operation ∈ Operation.appendOnlyForbidden ∧ table.appendOnly S then
    some ("the table is append-only (delta.appendOnly=true), so no commit may remove its data, " ++
      "and " ++ operation.value ++ " does")
  else if kind.direct ∧ operation ∈ Operation.uniformStaleWrites ∧ table.uniformIceberg S then
    if table.isManagedIceberg S then
      some ("the table is managed Iceberg (USING ICEBERG): its Iceberg metadata is the table of " ++
        "record, and a Delta commit would not reach it")
    else
      some ("the table has UniForm Iceberg metadata enabled, and only Databricks regenerates it " ++
        "after a write, so the Iceberg view would silently go stale")
  else if kind.direct ∧ operation ∈ Operation.columnMappingRequired ∧
      .columnMapping ∉ table.activeFeatures S then
    some (operation.value ++ " without rewriting data needs column mapping, which the table " ++
      "does not have; set_properties(\x7b'delta.columnMapping.mode': 'name'\x7d) first")
  else if kind.direct ∧ operation = .alterColumnType ∧
      S.lower (S.strip (table.property "delta.enableTypeWidening" "")) ≠ "true" then
    some ("changing a type without rewriting data needs type widening, which the table does not " ++
      "enable; set_properties(\x7b'delta.enableTypeWidening': 'true'\x7d) first")
  else
    let hit := (operationFeatureBlockers kind operation).filter (· ∈ table.activeFeatures S)
    if hit ≠ [] then
      some (operation.value ++ " is not supported on a table with " ++
        commaJoin (sortedNames (hit.map TableFeature.value)))
    else if kind = .kernel ∧ operation ∈ Operation.kernelLogWriteOperations then
      kernelLogBlocker table engine
    else none

/-- `_ENABLING_PROPERTIES`. -/
def enablingProperty : String → Option String
  | "delta.enablechangedatafeed" => some "changeDataFeed"
  | "delta.enabledeletionvectors" => some "deletionVectors"
  | "delta.enabletypewidening" => some "typeWidening"
  | "delta.enableincommittimestamps" => some "inCommitTimestamp"
  | "delta.enablerowtracking" => some "rowTracking"
  | _ => none

/-- The feature a property turns on. -/
def propertyFeature (key value : String) : Option String :=
  let lowered := S.lower key
  let on := S.lower value
  if "delta.feature.".toList.isPrefixOf lowered.toList ∧ on ∈ ["supported", "enabled"] then
    some (String.ofList (key.toList.drop "delta.feature.".length))
  else if (enablingProperty lowered).isSome ∧ on = "true" then enablingProperty lowered
  else if lowered = "delta.checkpointpolicy" ∧ on = "v2" then some "v2Checkpoint"
  else if lowered = "delta.columnmapping.mode" ∧ on ∈ ["name", "id"] then some "columnMapping"
  else none

/-- `_features_added`: what a metadata change of this shape turns on, with dependencies. -/
def featuresAdded (operation : Operation) (shape : Shape) : List String :=
  let names :=
    match operation with
    | .clusterBy => ["clustering"]
    | .addConstraint => ["checkConstraints"]
    | .addFeature =>
      match shape.get "features" with
      | some (.text name) => [name]
      | some (.names items) => items
      | _ => []
    | .setProperties =>
      match shape.get "properties" with
      | some (.mapping properties) => properties.filterMap fun p => propertyFeature S p.1 p.2
      | _ => []
    | _ => []
  Metadata.withDependencies names

/-- Whether every feature is known and written, some set aside. -/
def writesAll (support : TableFeature → Support) (unused features : List String) : Bool :=
  features.all fun name => decide (name ∈ unused) ||
    (TableFeature.fromWire name).any fun f => decide (support f ≠ .no)

/-- `_writes(..., "kernel", table)`. -/
def kernelWrites (table : ResolvedTable) (features : List String) : Bool :=
  writesAll kernelWrite
    (if !table.hasGeneratedColumns && nativeHas "check_constraints" then ["generatedColumns"]
    else []) features

/-- `_writes(..., "deltars")`. -/
def deltarsWrites (features : List String) : Bool := writesAll deltarsWrite [] features

/-- `_strands_feature_table`. -/
def strandsFeatureTable (operation : Operation) (table : ResolvedTable) (shape : Shape) :
    Option String :=
  let current := table.effectiveWriterFeatures
  let added := (featuresAdded S operation shape).filter (· ∉ current)
  let after := current ++ added
  if added = [] then none
  else if !(kernelWrites nativeHas table current || deltarsWrites current) then none
  else if kernelWrites nativeHas table after || deltarsWrites after then none
  else
    let kernelBlocks := after.filter fun n => !kernelWrites nativeHas table [n]
    let deltarsBlocks := after.filter fun n => !deltarsWrites [n]
    some ("turning on " ++ commaJoin (sortedNames added) ++
      " would leave no local engine able to " ++
      "write the table: the kernel does not write " ++ commaJoin (sortedNames kernelBlocks) ++
      ", and delta-rs does not write " ++ commaJoin (sortedNames deltarsBlocks) ++
      ". Make this change from Databricks, which can go on writing it, or copy the data into a " ++
      "new table created with the features it needs")

/-- `_strands_legacy_table`. -/
def strandsLegacyTable (operation : Operation) (table : ResolvedTable) (shape : Shape) :
    Option String :=
  let writer := table.minWriterVersion.getD 0
  if operation ∉ Operation.metadataOperations then none
  else if 7 ≤ writer then strandsFeatureTable S nativeHas operation table shape
  else if ¬ (3 ≤ writer ∧ writer ≤ 6) then none
  else
    let implied := Metadata.legacyWriter writer
    let added := (featuresAdded S operation shape).filter (· ∉ implied)
    let unwritable := added.filter fun n => !deltarsWrites [n]
    if added ≠ [] ∧ kernelWrites nativeHas table (implied ++ added) then none
    else if unwritable = [] then none
    else
      let names := commaJoin (sortedNames unwritable)
      let kept := commaJoin
        ((sortedNames implied).filter fun n => !kernelWrites nativeHas table [n])
      some ("the table is at the legacy writer version " ++ toString writer ++
        ", and turning on " ++ names ++ " moves it to table features that must keep listing " ++
        kept ++ " (as Databricks keeps them). The kernel writes no table listing those, and " ++
        "delta-rs cannot write " ++ names ++ ", so no local engine could write the table " ++
        "afterwards. Make this change from Databricks, which can go on writing it, or copy the " ++
        "data into a table created with table features")

/-- `_exempted`: the table as an engine should judge it. -/
def exempted (kind : EngineKind) (operation : Operation) (table : ResolvedTable) (shape : Shape) :
    ResolvedTable :=
  if kind ≠ .deltars then table
  else
    let dryRun := decide (operation ∈ Operation.deltarsDryRunOperations) &&
      (match shape.get "dry_run" with | some (.bool true) => true | _ => false)
    let exempt := deltarsOperationExemptions operation ++
      (if dryRun then deltarsVacuumDryRunExempt else [])
    let names := exempt.map TableFeature.value
    { table with
      readerFeatures := table.readerFeatures.filter (· ∉ names)
      writerFeatures := table.writerFeatures.filter (· ∉ names) }

def fileRewrites : List Operation := [.delete, .update, .merge, .replaceWhere, .optimize, .zorder]

def dataReads : List Operation := [.scan, .timeTravel, .cdf, .incremental]

/-- The operations delta-rs must not serve on a table it misreads. -/
def calendarBound : List Operation := fileRewrites ++ dataReads

/-- The version or timestamp a read looks at. -/
def readAt (operation : Operation) (shape : Shape) : Shape :=
  if operation ∈ fileRewrites then []
  else shape.filter fun e => decide (e.1 ∈ ["version", "timestamp"]) &&
    (match e.2 with | .none => false | _ => true)

/-- What is said of the files found. -/
def shiftedFiles (found : List String) : String :=
  toString found.length ++ " data file(s) (such as " ++ found.headD "" ++
    ") hold dates before 1582-10-15 or timestamps before 1900 that Spark wrote in its legacy " ++
    "hybrid calendar, or INT96 timestamps (which delta-rs decodes as nanoseconds, overflowing " ++
    "before 1677-09-21 and after 2262-04-11), and delta-rs reads them without rebasing"

/-- `_calendar_refusal`. -/
def calendarRefusal (router : Router) (table : ResolvedTable) (operation : Operation)
    (shape : Shape) : Option String :=
  let reading := operation ∉ fileRewrites
  if !table.hasDatetimeColumns then none
  else
    match (router.engines .kernel).bind Engine.legacyCalendarFiles with
    | none => none
    | some check =>
      match check table (readAt operation shape) with
      | .error e =>
        if reading then none
        else some ("could not check whether its data files were written in Spark's legacy " ++
          "hybrid calendar (" ++ e.shown ++ "), and a rewrite through delta-rs shifts the " ++
          "values of any that were")
      | .ok found =>
        if found = [] then none
        else if reading then
          some (shiftedFiles found ++
            "; this read would return the shifted values and filter on them")
        else
          some (shiftedFiles found ++
            "; this operation would copy them into new files shifted, corrupting the table")

/-- `_footerless_rewrite`. -/
def footerlessRewrite (router : Router) (table : ResolvedTable) (operation : Operation)
    (shape : Shape) (engine : Engine) : Option String :=
  if !table.hasDatetimeColumns then none
  else
    match (router.engines .kernel).bind Engine.earlyDatetimeFiles with
    | none => none
    | some early =>
      if engine.writesFilesItself.any fun writes => !writes operation table shape then none
      else
        match early table with
        | .error e =>
          some ("could not check whether its data files hold dates before 1582-10-15 or " ++
            "timestamps before 1900 (" ++ e.shown ++ "), which a rewrite through delta-rs " ++
            "copies into files Databricks reads shifted")
        | .ok found =>
          if found = [] then none
          else some (toString found.length ++ " data file(s) (such as " ++ found.headD "" ++
            ") may hold dates before 1582-10-15 or timestamps before 1900, and this operation " ++
            "would copy them into files delta-rs writes without Spark's writer metadata, which " ++
            "Databricks reads with its legacy calendar rebase (0001-01-01 reads there as " ++
            "0001-01-03)")

/-- `_kernel_filters_sql`. -/
def kernelFiltersSql (router : Router) (kind : EngineKind) (operation : Operation)
    (table : ResolvedTable) (needs : List String) (engine : Engine) (shape : Shape) : Bool :=
  decide (kind = .kernel) && decide (operation ∈ [Operation.scan, .timeTravel]) &&
  decide ("distributed_scan" ∉ needs) && engine.supportsReadSqlExpressions &&
  (calendarRefusal router table operation shape).isSome

def duckdbDml : List Operation := [.delete, .update, .replaceWhere]

/-- `_kernel_evaluates_sql`. -/
def kernelEvaluatesSql (kind : EngineKind) (operation : Operation) (needs : List String)
    (engine : Engine) : Bool :=
  decide (kind = .kernel) && decide (operation ∈ duckdbDml) && decide ("duckdb_sql" ∈ needs) &&
  decide ("spark_sql" ∉ needs) && engine.supportsDmlSqlExpressions

def dvDml : List Operation := [.delete, .update, .replaceWhere, .merge]

def statsWrites : List Operation := [.append, .overwrite]

/-- Whether the kernel goes first on this table. -/
def kernelFirst (operation : Operation) (table : ResolvedTable) : Bool :=
  (decide (operation ∈ dvDml) && table.deletionVectorsWritable S) ||
  (decide (operation = .vacuum) &&
    (decide ("deletionVectors" ∈ table.effectiveReaderFeatures) ||
      !deltarsWrites (table.effectiveReaderFeatures ++ table.effectiveWriterFeatures))) ||
  (decide (operation = .restore) &&
    decide (S.lower (table.property "delta.columnMapping.mode" "none") ∉ ["", "none"])) ||
  (decide (operation ∈ statsWrites) && table.deltarsDropsStats)

/-- `_preference`: the engines in the order to ask them. -/
def preference (operation : Operation) (table : ResolvedTable) (engines : List EngineKind) :
    List EngineKind :=
  if .kernel ∈ engines ∧ kernelFirst S operation table then
    .kernel :: engines.filter (· ≠ .kernel)
  else engines

end DeltaSwamp.Routing
