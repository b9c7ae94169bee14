import DeltaSwamp.Dict
import DeltaSwamp.Metadata.Features
import DeltaSwamp.Text

/-!
# Resolved tables

What a catalog says of a table before its log is read, and what routing makes
of it.

The conformance matrix of `capability.py`, as far as routing reads it: which
engines an operation has, and which features an engine writes.
-/

namespace DeltaSwamp.Routing

open Metadata (TableFeature)

inductive EngineKind where
  | kernel | deltars | sql | sharing | iceberg
  deriving DecidableEq

def EngineKind.value : EngineKind → String
  | kernel => "kernel"
  | deltars => "deltars"
  | sql => "sql"
  | sharing => "sharing"
  | iceberg => "iceberg"

inductive Operation where
  | scan | timeTravel | cdf | incremental | history | detail | files | append | overwrite
  | replaceWhere | create | mergeSchema | delete | update | merge | addColumn | dropColumn
  | renameColumn | setProperties | addFeature | dropFeature | addConstraint | dropConstraint
  | unsetProperties | setComment | setColumnComment | alterColumnType | setNotNull | dropNotNull
  | clusterBy | optimize | zorder | vacuum | restore | repair | checkpoint | logCompaction
  | publish | reorg | clone | convert | generate | cleanupMetadata | analyze | syncIceberg
  | refresh
  deriving DecidableEq

namespace Operation

def value : Operation → String
  | .scan => "scan"
  | .timeTravel => "time_travel"
  | .cdf => "cdf"
  | .incremental => "incremental"
  | .history => "history"
  | .detail => "detail"
  | .files => "files"
  | .append => "append"
  | .overwrite => "overwrite"
  | .replaceWhere => "replace_where"
  | .create => "create"
  | .mergeSchema => "merge_schema"
  | .delete => "delete"
  | .update => "update"
  | .merge => "merge"
  | .addColumn => "add_column"
  | .dropColumn => "drop_column"
  | .renameColumn => "rename_column"
  | .setProperties => "set_properties"
  | .addFeature => "add_feature"
  | .dropFeature => "drop_feature"
  | .addConstraint => "add_constraint"
  | .dropConstraint => "drop_constraint"
  | .unsetProperties => "unset_properties"
  | .setComment => "set_comment"
  | .setColumnComment => "set_column_comment"
  | .alterColumnType => "alter_column_type"
  | .setNotNull => "set_not_null"
  | .dropNotNull => "drop_not_null"
  | .clusterBy => "cluster_by"
  | .optimize => "optimize"
  | .zorder => "zorder"
  | .vacuum => "vacuum"
  | .restore => "restore"
  | .repair => "repair"
  | .checkpoint => "checkpoint"
  | .logCompaction => "log_compaction"
  | .publish => "publish"
  | .reorg => "reorg"
  | .clone => "clone"
  | .convert => "convert"
  | .generate => "generate"
  | .cleanupMetadata => "cleanup_metadata"
  | .analyze => "analyze"
  | .syncIceberg => "sync_iceberg"
  | .refresh => "refresh"

/-- `OPERATION_ENGINES`: the engines that can serve an operation, in preference order. -/
def engines : Operation → List EngineKind
  | .scan | .timeTravel | .detail => [.kernel, .deltars, .sharing, .iceberg, .sql]
  | .cdf => [.kernel, .deltars, .sharing, .sql]
  | .incremental => []
  | .history => [.deltars, .iceberg, .sql]
  | .files | .create | .checkpoint | .generate => [.deltars, .kernel]
  | .append | .overwrite => [.deltars, .kernel, .iceberg, .sql]
  | .replaceWhere => [.deltars, .iceberg, .sql, .kernel]
  | .mergeSchema | .addColumn | .setProperties | .addFeature | .addConstraint | .dropConstraint
  | .setComment | .setColumnComment | .dropNotNull | .vacuum | .restore | .repair =>
    [.deltars, .kernel, .sql]
  | .delete | .update | .merge => [.deltars, .sql, .kernel]
  | .dropColumn | .renameColumn | .unsetProperties | .alterColumnType | .setNotNull | .clusterBy
  | .clone => [.kernel, .sql]
  | .dropFeature | .reorg | .analyze | .syncIceberg | .refresh => [.sql]
  | .optimize | .zorder => [.kernel, .deltars, .sql]
  | .logCompaction | .convert => [.deltars]
  | .publish => [.kernel]
  | .cleanupMetadata => [.kernel, .deltars]

def readOperations : List Operation :=
  [.scan, .timeTravel, .cdf, .incremental, .history, .detail, .files]

/-- The operations that change only metadata. -/
def metadataOperations : List Operation :=
  [.addColumn, .dropColumn, .renameColumn, .setProperties, .unsetProperties, .addFeature,
   .addConstraint, .dropConstraint, .setComment, .setColumnComment, .alterColumnType, .setNotNull,
   .dropNotNull, .clusterBy]

/-- The operations that remove data. -/
def appendOnlyForbidden : List Operation :=
  [.overwrite, .replaceWhere, .delete, .update, .restore]

/-- Data commits that leave Iceberg metadata behind. -/
def uniformStaleWrites : List Operation :=
  [.append, .overwrite, .replaceWhere, .delete, .update, .merge, .mergeSchema]

def columnMappingRequired : List Operation := [.renameColumn, .dropColumn]

/-- The operations the kernel serves by writing to the log without a data commit. -/
def kernelLogWriteOperations : List Operation := [.checkpoint]

def deltarsDryRunOperations : List Operation := [.vacuum, .repair]

/-- The operations no open-source engine implements. -/
def databricksOnly (operation : Operation) : Bool := decide (operation.engines = [.sql])

end Operation

inductive Support where
  | yes | no | partly
  deriving DecidableEq

/-- `kernel_write` of `FEATURE_SUPPORT`. -/
def kernelWrite : TableFeature → Support
  | .icebergCompatV1 | .icebergCompatV2 | .icebergWriterCompatV1 | .icebergWriterCompatV3
  | .adaptiveMetadataPreview | .geospatial | .collations | .collationsPreview
  | .timestampNanos => .no
  | .invariants | .checkConstraints | .generatedColumns | .identityColumns | .rowTracking
  | .checkpointProtection => .partly
  | _ => .yes

/-- `deltars_write` of `FEATURE_SUPPORT`. -/
def deltarsWrite : TableFeature → Support
  | .identityColumns | .inCommitTimestamp | .rowTracking | .domainMetadata | .icebergCompatV1
  | .icebergCompatV2 | .icebergWriterCompatV1 | .icebergWriterCompatV3 | .icebergCompatV3
  | .clustering | .materializePartitionColumns | .allowColumnDefaults | .catalogManaged
  | .catalogOwnedPreview | .typeWidening | .typeWideningPreview | .vacuumProtocolCheck
  | .variantShredding | .variantShreddingPreview | .adaptiveMetadataPreview | .geospatial
  | .collations | .collationsPreview | .checkpointProtection => .no
  | .deletionVectors => .partly
  | _ => .yes

def valueConstraintFeatures : List TableFeature :=
  [.checkConstraints, .generatedColumns, .identityColumns, .invariants]

def logOnlyExempt : List TableFeature :=
  [.domainMetadata, .clustering, .rowTracking, .typeWidening, .typeWideningPreview,
   .variantShredding, .variantShreddingPreview, .identityColumns, .generatedColumns,
   .checkConstraints, .invariants, .allowColumnDefaults, .materializePartitionColumns]

/-- `OPERATION_FEATURE_BLOCKERS`. -/
def operationFeatureBlockers : EngineKind → Operation → List TableFeature
  | .deltars, .optimize | .deltars, .zorder | .deltars, .addColumn => [.columnMapping]
  | .deltars, .generate | .kernel, .generate => [.deletionVectors, .columnMapping]
  | _, _ => []

/-- `DELTARS_OPERATION_EXEMPTIONS`. -/
def deltarsOperationExemptions : Operation → List TableFeature
  | .history => [.typeWidening, .typeWideningPreview, .vacuumProtocolCheck, .variantShredding,
      .variantShreddingPreview]
  | .cleanupMetadata => logOnlyExempt
  | .logCompaction => logOnlyExempt ++ [.inCommitTimestamp]
  | _ => []

def deltarsVacuumDryRunExempt : List TableFeature :=
  logOnlyExempt ++ [.inCommitTimestamp, .vacuumProtocolCheck]

/-- `LEGACY_READER_FEATURES`. -/
def legacyReaderFeatures : Nat → List String
  | 1 => []
  | _ => ["columnMapping"]

/-- `LEGACY_WRITER_FEATURES`; a version not in it is read as 6. -/
def legacyWriterFeatures : Nat → List String
  | 1 => []
  | 2 => Metadata.legacyWriter 2
  | 3 => Metadata.legacyWriter 3
  | 4 => Metadata.legacyWriter 4
  | 5 => Metadata.legacyWriter 5
  | _ => Metadata.legacyWriter 6

/-- `implied_features`: what protocol versions below the feature-based ones imply. -/
def impliedReader (minReader : Option Nat) : List String :=
  match minReader with
  | some version => if version < 3 then legacyReaderFeatures version else []
  | none => []

def impliedWriter (minWriter : Option Nat) : List String :=
  match minWriter with
  | some version => if version < 7 then legacyWriterFeatures version else []
  | none => []

open Metadata (TableFeature)

/-- `str.lower`, `str.upper` and `str.strip`. -/
structure Str where
  lower : String → String
  upper : String → String
  strip : String → String

/-- `needle in text`. -/
def mentions (text needle : String) : Bool := Text.contains text.toList needle.toList

inductive RefKind where
  | catalog | path
  deriving DecidableEq

structure TableRef where
  kind : RefKind
  catalog : Option String
  scheme : Option String
  deriving DecidableEq

inductive TableType where
  | managed | external | view | materializedView | streamingTable | managedShallowClone
  | externalShallowClone | foreign | metricView
  deriving DecidableEq

instance : LawfulBEq (Option TableType) := inferInstance

def TableType.value : TableType → String
  | managed => "MANAGED"
  | external => "EXTERNAL"
  | view => "VIEW"
  | materializedView => "MATERIALIZED_VIEW"
  | streamingTable => "STREAMING_TABLE"
  | managedShallowClone => "MANAGED_SHALLOW_CLONE"
  | externalShallowClone => "EXTERNAL_SHALLOW_CLONE"
  | foreign => "FOREIGN"
  | metricView => "METRIC_VIEW"

structure ResolvedTable where
  ref : TableRef
  location : Option String
  tableType : Option TableType
  dataSourceFormat : Option String
  minReaderVersion : Option Nat
  minWriterVersion : Option Nat
  readerFeatures : List String
  writerFeatures : List String
  properties : Dict String String
  hasGeneratedColumns : Bool
  hasDatetimeColumns : Bool
  openError : Option String
  /-- `none` where the catalog was not asked. -/
  externalReadSupported : Option Bool
  externalWriteSupported : Option Bool
  accessPolicy : Option String
  icebergRestUri : Option String
  sharingProfile : Option String
  deriving DecidableEq

/-- A text that is there and not empty. -/
def present (value : Option String) : Bool := value.any (· ≠ "")

namespace ResolvedTable

variable (S : Str) (table : ResolvedTable)

def property (key default : String) : String := (table.properties.get key).getD default

def isShared : Bool := table.sharingProfile.isSome

def isIceberg : Bool := decide (S.upper (table.dataSourceFormat.getD "") = "ICEBERG")

def isDelta : Bool :=
  decide (S.upper (table.dataSourceFormat.getD "") ∈
    ["", "DELTA", "DELTA_UNIFORM_ICEBERG", "DELTA_UNIFORM_HUDI"])

/-- Views, materialized views, metric views and streaming tables. -/
def isViewLike : Bool :=
  decide (table.tableType ∈ [some .view, some .materializedView, some .metricView,
    some .streamingTable])

def features : List String := table.readerFeatures ++ table.writerFeatures

def effectiveReaderFeatures : List String :=
  table.readerFeatures ++ impliedReader table.minReaderVersion

def effectiveWriterFeatures : List String :=
  table.writerFeatures ++ impliedWriter table.minWriterVersion

def knownFeatures : List TableFeature := table.features.filterMap TableFeature.fromWire

def isCatalogManaged : Bool :=
  decide (TableFeature.catalogManaged.value ∈ table.features) ||
  decide (TableFeature.catalogOwnedPreview.value ∈ table.features) ||
  [TableFeature.catalogManaged, .catalogOwnedPreview].any fun f =>
    decide (S.lower (table.property ("delta.feature." ++ f.value) "") ∈ ["supported", "enabled"])

def isManagedIceberg : Bool :=
  table.isIceberg S ||
  table.isCatalogManaged S &&
    ["delta.enableIcebergWriterCompatV1", "delta.enableIcebergWriterCompatV3"].any fun key =>
      decide (S.lower (S.strip (table.property key "")) = "true")

/-- `_is_uc_hive_metastore`: Databricks' legacy catalog. -/
def isUcHiveMetastore : Bool :=
  decide (S.lower (table.ref.catalog.getD "") = "hive_metastore") &&
  decide (table.ref.scheme ≠ some "hms")

/-- `_warehouse_can_name`: a Unity Catalog name. -/
def warehouseCanName : Bool :=
  decide (table.ref.kind = .catalog) &&
  decide (S.lower (table.ref.scheme.getD "") ∉ ["hms", "hive", "glue"])

/-- `_append_only`. -/
def appendOnly : Bool :=
  decide (S.lower (S.strip (table.property "delta.appendOnly" "")) = "true")

/-- Whether the table's Iceberg metadata is enabled. -/
def uniformIceberg : Bool :=
  mentions (S.lower (table.property "delta.universalFormat.enabledFormats" "")) "iceberg"

/-- `shreds_variants`. -/
def shredsVariants : Bool :=
  decide (S.lower (table.property "delta.enableVariantShredding" "") = "true")

/-- `_geospatial`. -/
def geospatial : Bool :=
  decide ("geospatial" ∈ table.features) ||
  (table.properties.get "delta.feature.geospatial").isSome ||
  mentions (table.openError.getD "") "type: 'geometry(" ||
  mentions (table.openError.getD "") "type: 'geography("

/-- `_active_features`: the features as they act on a commit. -/
def activeFeatures : List TableFeature :=
  let mode := S.lower (S.strip (table.property "delta.columnMapping.mode" "none"))
  let active := table.knownFeatures
  let active := if mode = "name" ∨ mode = "id" then .columnMapping :: active
    else active.filter (· ≠ .columnMapping)
  if S.lower (S.strip (table.property "delta.rowTrackingSuspended" "")) = "true" then
    active.filter (· ≠ .rowTracking)
  else active

/-- `deletion_vectors_writable`. -/
def deletionVectorsWritable : Bool :=
  decide ("deletionVectors" ∈ table.readerFeatures) &&
  decide ("deletionVectors" ∈ table.writerFeatures) &&
  decide (S.lower (table.property "delta.enableDeletionVectors" "false") = "true")

/-- `_deltars_drops_stats`. -/
def deltarsDropsStats : Bool := present (table.properties.get "delta.dataSkippingStatsColumns")

end ResolvedTable

/-- A keyword of a request. -/
inductive Value where
  | none
  | bool (b : Bool)
  | text (s : String)
  | names (items : List String)
  | mapping (items : Dict String String)
  | other (n : Nat)

/-- The shape of a request: its keywords. -/
abbrev Shape := Dict String Value

/-- What an engine's `supports` answers. -/
inductive Answer where
  | accepts
  | refuses (reason remedy : String)
  deriving DecidableEq

structure Capability where
  operation : Operation
  ok : Bool
  engine : Option EngineKind
  reason : String
  remedy : String
  deriving DecidableEq

def Capability.refused (operation : Operation) (reason remedy : String) : Capability :=
  ⟨operation, false, none, reason, remedy⟩

/-- An engine answers for itself. -/
def Answer.capability (operation : Operation) (kind : EngineKind) : Answer → Capability
  | accepts => ⟨operation, true, some kind, "", ""⟩
  | refuses reason remedy => .refused operation reason remedy

/-- An exception a check raised. -/
structure Raised where
  type : String
  message : String

/-- `type(exc).__name__: str(exc)[:160]`. -/
def Raised.shown (e : Raised) : String :=
  e.type ++ ": " ++ String.ofList (e.message.toList.take 160)

/-- An engine, as routing asks it; a check an engine does not have is `none`. -/
structure Engine where
  supports : Operation → ResolvedTable → Shape → Answer
  /-- The needs whose `supports_...` attribute is true. -/
  declares : String → Bool
  needRefusal : Option (List String → ResolvedTable → Option String)
  supportsReadSqlExpressions : Bool
  supportsDmlSqlExpressions : Bool
  checkpointsPastValueConstraints : Option Bool
  hasInvariants : Option (ResolvedTable → Except Raised Bool)
  /-- With the version or timestamp to look at, if any. -/
  legacyCalendarFiles : Option (ResolvedTable → Shape → Except Raised (List String))
  /-- `early_datetime_files(snapshot(table))`. -/
  earlyDatetimeFiles : Option (ResolvedTable → Except Raised (List String))
  writesFilesItself : Option (Operation → ResolvedTable → Shape → Bool)

structure Router where
  engines : EngineKind → Option Engine
  allowSqlFallback : Bool
  /-- Whether the catalog is the Databricks workspace a SQL warehouse serves. -/
  warehouseCatalog : Bool

end DeltaSwamp.Routing
