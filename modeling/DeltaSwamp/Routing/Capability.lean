import DeltaSwamp.Routing.Screens

/-!
# Choosing an engine

`Router.capability` and `engine_for`: the refusals decided from catalog metadata
alone, the loop over the engines of an operation, and the advice given when
none serves.
-/

namespace DeltaSwamp.Routing

open Metadata (TableFeature sortedNames)

def sqlFallbackRemedy : String := "ds.connect(..., allow_sql_fallback=True)"

/-- The remedy for a table the warehouse cannot name. -/
def registerRemedy : String :=
  "register the table in Unity Catalog (as an external table over its location) and address it " ++
    "by name through ds.connect(..., allow_sql_fallback=True)"

def unfixableOpenErrors : List String :=
  ["tablenotfound", "not a delta table", "no such file or directory", "does not exist",
   "no files in log segment", "corrupt", "invalid json", "failed to parse", "has no such version",
   "expected contiguous commit files", "no table metadata found", "no protocol found",
   "invalid protocol action", "unmasked nulls"]

def authOpenErrors : List String :=
  ["could not configure databricks authentication", "the databricks credentials were rejected",
   "cannot reach the databricks host"]

variable (S : Str) (nativeHas : String → Bool)

/-- `_open_error_remedy`. -/
def openErrorRemedy (table : ResolvedTable) (warehouse : Bool) : String :=
  let error := S.lower (table.openError.getD "")
  if authOpenErrors.any (mentions error) then
    "fix the Databricks authentication this process uses (host=/token=, " ++
      "DATABRICKS_HOST/DATABRICKS_TOKEN, a profile or OAuth settings); the SQL warehouse " ++
      "fallback needs the same credentials"
  else if unfixableOpenErrors.any (mentions error) then
    "check that " ++ (if present table.location then table.location.getD "" else
      "the table location") ++
      " holds a readable Delta log; the SQL warehouse reads the same storage and would fail the " ++
      "same way"
  else if warehouse && table.warehouseCanName S then sqlFallbackRemedy
  else ""

/-- `_warehouse_names`. -/
def Router.warehouseNames (router : Router) (table : ResolvedTable) : Bool :=
  router.warehouseCatalog && table.warehouseCanName S

/-- `_fallback_remedy`. -/
def Router.fallbackRemedy (router : Router) (table : ResolvedTable) : String :=
  if router.warehouseNames S table then sqlFallbackRemedy else ""

/-- `_scrubbed`. -/
def Router.scrubbed (router : Router) (capability : Capability) : Capability :=
  if router.warehouseCatalog || !mentions capability.remedy "allow_sql_fallback" then capability
  else { capability with remedy := "" }

def queryDefined : List (Option TableType) := [some .view, some .materializedView, some .metricView]

def dataWrites : List Operation :=
  [.append, .overwrite, .replaceWhere, .delete, .update, .merge, .mergeSchema, .restore]

/-- The operations the catalog's committer refuses past version 0. -/
def catalogManagedAlterOps : List Operation :=
  Operation.metadataOperations ++ [.dropFeature, .addConstraint, .mergeSchema]

/-- The operations on a directory with no Delta log yet. -/
def noLogYet : List Operation := [.create, .convert]

def appendOnlyForbids : List Operation := [.delete, .update, .overwrite, .replaceWhere]

def accessPolicyForbids : List Operation := [.timeTravel, .cdf, .restore]

/-- A view-like object without files a direct engine could open. -/
def ResolvedTable.unreadableView (table : ResolvedTable) : Bool :=
  table.isViewLike && !(decide (table.externalReadSupported = some true) && present table.location)

/-- `_direct_refusal`: why no direct engine may touch the table. -/
def directRefusal (operation : Operation) (table : ResolvedTable) : Option String :=
  if table.isShared then none
  else if !table.isDelta S then some "the table is not Delta, so it has no Delta log"
  else if table.unreadableView then
    some "the relation is a view-like object with no directly readable file surface"
  else if table.tableType = some .foreign then
    some "the table is FOREIGN (federated), which credential vending does not cover"
  else if table.isUcHiveMetastore S then
    some "the legacy hive_metastore catalog cannot be credential-vended"
  else if table.isCatalogManaged S ∧ operation ∈ catalogManagedAlterOps then
    some ("the table is catalog-managed, and its commit protocol refuses protocol and metadata " ++
      "changes after version 0")
  else if table.openError.isSome ∧ operation ∉ noLogYet then
    some ("the table's Delta log could not be read (" ++ table.openError.getD "" ++ ")")
  else none

/-- `_vendable`. -/
def vendable (operation : Operation) (table : ResolvedTable) : Bool :=
  decide (table.externalReadSupported ≠ some false) &&
  !(decide (operation ∉ Operation.readOperations) &&
    decide (table.externalWriteSupported = some false))

/-- Why a table without external reads is refused. -/
def unreadReason (table : ResolvedTable) : String :=
  if present table.accessPolicy then
    "the table has " ++ table.accessPolicy.getD "" ++
      ", and Unity Catalog vends no credentials for tables with row filters or column masks"
  else
    "Unity Catalog reports no external-engine read support for this table " ++
      "(HAS_DIRECT_EXTERNAL_ENGINE_READ_SUPPORT absent)"

/-- `_unvendable_reason`. -/
def unvendableReason (operation : Operation) (table : ResolvedTable) : String :=
  if table.externalReadSupported = some false then unreadReason table
  else
    "Unity Catalog reports no external-engine write support for this table " ++
      "(HAS_DIRECT_EXTERNAL_ENGINE_WRITE_SUPPORT absent), so " ++ operation.value ++
      " cannot commit from outside Databricks"

/-- `_warehouse_only`. -/
def warehouseOnly (operation : Operation) (table : ResolvedTable) : Option String :=
  if table.tableType = some .foreign then
    some ("the table is FOREIGN (federated). Depending on subtype its data lives in another " ++
      "system entirely, or is reachable only through the Iceberg REST catalog; credential " ++
      "vending does not cover it")
  else if table.isUcHiveMetastore S then
    some ("the table is in the legacy hive_metastore catalog, which is not a Unity Catalog " ++
      "securable and cannot be credential-vended")
  else if table.isCatalogManaged S ∧ operation ∈ catalogManagedAlterOps then
    some ("the table is catalog-managed, and its commit protocol refuses protocol, metadata and " ++
      "clustering changes after version 0. Schema and property changes have to go through the " ++
      "catalog's own APIs")
  else none

/-- Whether a SQL warehouse is reachable for the connection. -/
def Router.sqlFallback (router : Router) : Bool :=
  router.allowSqlFallback && router.warehouseCatalog && (router.engines .sql).isSome

/-- The part of `_catalog_level_block` for a table that is not Delta. -/
def Router.formatBlock (router : Router) (operation : Operation) (table : ResolvedTable) :
    Option Capability :=
  let fmt := if present table.dataSourceFormat then table.dataSourceFormat.getD "" else "unknown"
  if table.isIceberg S ∧ (router.engines .iceberg).isSome ∧ present table.icebergRestUri then none
  else if router.sqlFallback then none
  else if table.isIceberg S then
    some (.refused operation
      ("the table is Iceberg (" ++ fmt ++ "), not Delta, and no Iceberg engine is available " ++
        "for it" ++ (if present table.icebergRestUri then ""
          else " (its catalog advertises no Iceberg REST endpoint)"))
      ("pip install 'deltaswamp[iceberg]' to read it through the catalog's Iceberg REST " ++
        "endpoint with PyIceberg"))
  else
    some (.refused operation
      ("the table's format is " ++ fmt ++ ", not Delta, so it has no Delta log")
      (if router.warehouseNames S table then
        "ds.connect(..., allow_sql_fallback=True) can still query it" else ""))

/-- The part for a view-like object without readable files. -/
def Router.viewBlock (router : Router) (operation : Operation) (table : ResolvedTable) :
    Option Capability :=
  if router.sqlFallback then none
  else
    some (.refused operation
      ("the table is a " ++ (table.tableType.elim "view" TableType.value) ++
        ", which has no directly readable file surface. " ++
        (if table.externalReadSupported = some true then
          "Unity Catalog reports external read support for it but exposes no storage location, " ++
            "so there are no files any direct engine can open"
        else
          "Credential vending refuses views, materialized views, metric views and streaming " ++
            "tables"))
      (router.fallbackRemedy S table))

/-- The part for operations that exist only in Databricks. -/
def Router.databricksBlock (router : Router) (operation : Operation) (table : ResolvedTable) :
    Option Capability :=
  let only := operation.value ++ " has no open-source implementation in either delta-rs or " ++
    "delta-kernel; it exists only in Databricks"
  if operation.databricksOnly ∧ ¬ router.warehouseCatalog ∧ table.ref.kind = .catalog then
    some (.refused operation
      (only ++ ", and this connection's catalog is not Databricks Unity Catalog") "")
  else if operation.databricksOnly ∧ ¬ table.warehouseCanName S then
    some (.refused operation
      (only ++ ", and a SQL warehouse can only reach tables by their Unity Catalog name")
      registerRemedy)
  else if operation.databricksOnly ∧ ¬ router.allowSqlFallback then
    some (.refused operation only (router.fallbackRemedy S table))
  else none

/-- The refusals that hold only where no warehouse is reachable, and what comes after. -/
def Router.reachBlock (router : Router) (operation : Operation) (table : ResolvedTable) :
    Option Capability :=
  if (warehouseOnly S operation table).isSome ∧ ¬ router.sqlFallback then
    some (.refused operation ((warehouseOnly S operation table).getD "")
      (router.fallbackRemedy S table))
  else if table.externalReadSupported = some false ∧ ¬ router.sqlFallback then
    some (.refused operation (unreadReason table) (router.fallbackRemedy S table))
  else if operation ∉ Operation.readOperations ∧ table.externalWriteSupported = some false ∧
      ¬ router.sqlFallback then
    some (.refused operation
      ("Unity Catalog reports no external-engine write support for this table " ++
        "(HAS_DIRECT_EXTERNAL_ENGINE_WRITE_SUPPORT absent; Databricks refuses its write " ++
        "credentials with EXTERNAL_WRITE_NOT_ALLOWED_FOR_TABLE). A managed table takes writes " ++
        "from outside Databricks only with catalog commits enabled (catalog-managed); otherwise " ++
        "write to an external table, or through a SQL warehouse, which is a driver-side write " ++
        "and not a distributed one")
      (router.fallbackRemedy S table))
  else if table.openError.isSome ∧ operation ∉ noLogYet ∧ ¬ router.sqlFallback then
    some (.refused operation
      (if table.geospatial then
        "the table has a GEOMETRY or GEOGRAPHY column (the geospatial feature), which no direct " ++
          "engine reads or writes"
      else
        "the table's Delta log could not be read, so no direct engine can serve this (" ++
          table.openError.getD "" ++ ")")
      (openErrorRemedy S table router.warehouseCatalog))
  else router.databricksBlock S operation table

/-- `_catalog_level_block`. -/
def Router.catalogLevelBlock (router : Router) (operation : Operation) (table : ResolvedTable) :
    Option Capability :=
  if table.isShared then
    if (router.engines .sharing).isSome then none
    else some (.refused operation
      "the table is reached through Delta Sharing, and the sharing engine is not available"
      "pip install 'deltaswamp[sharing]'")
  else if !table.isDelta S then router.formatBlock S operation table
  else if table.tableType ∈ queryDefined ∧ operation ∈ dataWrites then
    some (.refused operation
      ("the table is a " ++ (table.tableType.elim "" TableType.value) ++
        ": it is defined by a query over other tables and holds no data of its own, so there is " ++
        "nothing to " ++ operation.value ++ " anywhere")
      ("write to the tables it reads from" ++
        (if table.tableType = some .materializedView then "; then refresh() it" else "")))
  else if table.unreadableView then router.viewBlock S operation table
  else if operation ∈ appendOnlyForbids ∧ table.appendOnly S then
    some (.refused operation
      ("the table is append-only (delta.appendOnly=true), which forbids removing or rewriting " ++
        "rows")
      "t.set_properties(\x7b'delta.appendOnly': 'false'\x7d) if that is intended")
  else if present table.accessPolicy ∧ operation ∈ accessPolicyForbids then
    some (.refused operation
      ("the table has " ++ table.accessPolicy.getD "" ++ ", and Databricks refuses time travel, " ++
        "change data feed and RESTORE on a table with a row filter or column mask, since " ++
        "earlier versions would escape the policy") "")
  else router.reachBlock S operation table

/-- The needs that ask nothing of an engine. -/
def routerHints : List String :=
  ["collation_free", "variant_free", "removes_rows", "conditional_insert_with_feed",
   "early_datetimes", "duckdb_sql"]

def needReason : String → String
  | "interval_columns" =>
    "SQL on an ANSI interval column: its files hold the interval as bare integers (months, or " ++
      "microseconds), which a direct engine would compare in place of the interval; filter " ++
      "after reading (the frames show the interval), or use the warehouse"
  | "pinned_read" =>
    "a DELETE, UPDATE or MERGE from a handle pinned to a past version, which only the kernel's " ++
      "deletion-vector DML commits (conflict-checked against the commits since)"
  | "incremental_files" =>
    "reading the files added between two versions (added_since), which only the kernel's " ++
      "incremental scan lists"
  | need => need

/-- The needs an engine is judged on and does not declare, in order. -/
def unmet (engine : Engine) (needs : List String) : List String :=
  sortedNames ((needs.filter (· ∉ routerHints)).filter fun need => !engine.declares need)

/-- What an engine was skipped for, with its own remedy where it gave one. -/
structure Skipped where
  reason : String
  remedy : String

section
variable (router : Router) (operation : Operation) (table : ResolvedTable) (needs : List String)
  (exclude : List EngineKind) (shape : Shape)

/-- The unmet needs, those aside that the kernel evaluates itself. -/
def missingNeeds (kind : EngineKind) (engine : Engine) : List String :=
  let missing := unmet engine needs
  if missing = ["sql_expressions"] ∧
      (kernelFiltersSql router kind operation table needs engine shape ∨
        kernelEvaluatesSql kind operation needs engine) then []
  else missing

/-- What delta-rs must not do to the table's files, once it would serve. -/
def fileRefusal (kind : EngineKind) (engine : Engine) : Option String :=
  let shifted := if kind = .deltars ∧ operation ∈ calendarBound then
      calendarRefusal router table operation shape else none
  let footerless := if kind = .deltars ∧ operation ∈ fileRewrites then
      footerlessRewrite router table operation shape engine else none
  shifted.or footerless

/-- The collated and the shredded columns a direct engine cannot read. -/
def columnRefusal (kind : EngineKind) : Option String :=
  if "predicates" ∈ needs ∧ "collation_free" ∉ needs ∧ kind.direct ∧
      table.features.any (· ∈ ["collations", "collations-preview"]) then
    some ("the table has collated columns, and a direct engine evaluates predicates by byte " ++
      "order rather than by the collation")
  else if kind.direct ∧ operation ∈ dataReads ∧ "variant_free" ∉ needs ∧ table.shredsVariants S then
    some ("the table shreds VARIANT values (delta.enableVariantShredding), and a direct engine " ++
      "cannot decode a shredded file; read columns other than the VARIANT ones, or use the " ++
      "warehouse")
  else none

/-- Why a direct engine must not touch the table, whatever the fallback says. -/
def tableRefusal (kind : EngineKind) : Option String :=
  let refusal := (directRefusal S operation table).or
    (strandsLegacyTable S nativeHas operation table shape)
  if kind.direct ∧ refusal.isSome then refusal
  else if kind.direct ∧ ¬ vendable operation table then some (unvendableReason operation table)
  else none

/-- Why the SQL engine is not asked. -/
def sqlRefusal (kind : EngineKind) : Option String :=
  if kind = .sql ∧ ¬ router.warehouseCatalog then
    some ("a SQL warehouse serves only the Databricks workspace's own Unity Catalog, and this " ++
      "connection's catalog is not one")
  else if kind = .sql ∧ ¬ table.warehouseCanName S then
    some "a SQL warehouse addresses Unity Catalog tables by name, and this table has none"
  else if kind = .sql ∧ ¬ router.allowSqlFallback then
    some ("the SQL warehouse fallback is disabled. It is opt-in because rerouting through a " ++
      "warehouse changes latency and cost by orders of magnitude")
  else none

/-- The need the engine has in general but not for this table. -/
def needsRefusal (engine : Engine) : Option String :=
  if needs = [] then none else engine.needRefusal.bind fun refusal => refusal needs table

/-- One engine of the loop, configured: asked after every screen. -/
def ask (kind : EngineKind) (engine : Engine) : Except Skipped Unit :=
  match tableRefusal S nativeHas operation table shape kind with
  | some reason => .error ⟨reason, ""⟩
  | none =>
    let missing := missingNeeds router operation table needs shape kind engine
    if missing ≠ [] then
      .error ⟨"does not support " ++ commaJoin (missing.map needReason), ""⟩
    else
      match ((needsRefusal table needs engine).or
          (columnRefusal S operation table needs kind)).or
          (operationBlocker S kind operation table engine) with
      | some reason => .error ⟨reason, ""⟩
      | none =>
        match engine.supports operation (exempted kind operation table shape) shape with
        | .accepts =>
          match fileRefusal router operation table shape kind engine with
          | some reason => .error ⟨reason, ""⟩
          | none => .ok ()
        | .refuses reason remedy => .error ⟨reason, if kind = .sql then remedy else ""⟩

/-- One engine of the loop. -/
def consider (kind : EngineKind) : Except Skipped Unit :=
  if kind ∈ exclude then .error ⟨"already tried, and failed", ""⟩
  else
    match sqlRefusal S router table kind with
    | some reason => .error ⟨reason, ""⟩
    | none =>
      match router.engines kind with
      | none => .error ⟨"engine not configured", ""⟩
      | some engine => ask S nativeHas router operation table needs shape kind engine

/-- The loop over the engines: the first that serves, else the reasons and the remedy that
the SQL engine gave. -/
def route : List EngineKind → List String → String → EngineKind ⊕ (List String × String)
  | [], reasons, remedy => .inr (reasons, remedy)
  | kind :: kinds, reasons, remedy =>
    match consider S nativeHas router operation table needs exclude shape kind with
    | .ok () => .inl kind
    | .error skipped =>
      route kinds (reasons ++ [kind.value ++ ": " ++ skipped.reason])
        (if skipped.remedy ≠ "" then skipped.remedy else remedy)

/-- The remedy when no engine serves. -/
def unservedRemedy (sqlRemedy : String) : String :=
  if .sql ∈ operation.engines ∧ ¬ table.isShared then
    if ¬ router.warehouseCatalog ∧ table.ref.kind = .catalog then ""
    else if ¬ table.warehouseCanName S then registerRemedy
    else if ¬ router.allowSqlFallback then
      "ds.connect(..., allow_sql_fallback=True) would route this to a SQL warehouse"
    else sqlRemedy
  else sqlRemedy

/-- Requests no engine may serve, whatever it answers. -/
def requestRefusal : Option (String × String) :=
  if "identity_insert" ∈ needs then
    some ("the data gives values for a GENERATED ALWAYS AS IDENTITY column, which Delta " ++
      "generates itself and refuses to take " ++
      "(DELTA_IDENTITY_COLUMNS_EXPLICIT_INSERT_NOT_SUPPORTED)",
      "leave the identity column out of the data")
  else if "identity_update" ∈ needs then
    some ("when_matched_update_all() would assign the identity column the source carries, and " ++
      "Delta refuses to update an identity column (DELTA_IDENTITY_COLUMNS_UPDATE_NOT_SUPPORTED)",
      "drop the identity column from the source, or name the columns to set with " ++
      "when_matched_update(...)")
  else if "removes_rows" ∈ needs ∧ table.appendOnly S then
    some ("the table is append-only (delta.appendOnly=true), and this MERGE's UPDATE or DELETE " ++
      "clauses would remove or rewrite rows",
      "merge with WHEN NOT MATCHED INSERT clauses only, or " ++
      "t.set_properties(\x7b'delta.appendOnly': 'false'\x7d) if that is intended")
  else none

/-- A shared table's own engine: its verdict is the whole answer. -/
def sharedVerdict (sharing : Engine) : Capability :=
  if unmet sharing needs ≠ [] then
    .refused operation ("sharing: does not support " ++ commaJoin (unmet sharing needs)) ""
  else (sharing.supports operation table shape).capability operation .sharing

/-- The loop's verdict. -/
def loopVerdict : Capability :=
  match route S nativeHas router operation table needs exclude shape
      (preference S operation table operation.engines) [] "" with
  | .inl kind => ⟨operation, true, some kind, "", ""⟩
  | .inr (reasons, sqlRemedy) =>
    .refused operation
      (if reasons = [] then "no engine can serve this operation" else join "; " reasons)
      (unservedRemedy S router operation table sqlRemedy)

/-- `_capability`. -/
def decideCapability : Capability :=
  match router.catalogLevelBlock S operation table with
  | some blocked => blocked
  | none =>
    match requestRefusal S table needs with
    | some (reason, remedy) => .refused operation reason remedy
    | none =>
      match router.engines .sharing with
      | some sharing =>
        if table.isShared then sharedVerdict operation table needs shape sharing
        else loopVerdict S nativeHas router operation table needs exclude shape
      | none => loopVerdict S nativeHas router operation table needs exclude shape

/-- `capability`. -/
def capability : Capability :=
  router.scrubbed (decideCapability S nativeHas router operation table needs exclude shape)

/-- How `engine_for` ends: an engine, a `FallbackRequiredError` or an `UnreachableTableError`. -/
inductive Routed where
  | engine (kind : EngineKind)
  | fallbackRequired (reason remedy : String)
  | unreachable (reason remedy : String)
  deriving DecidableEq

/-- Whether the fallback is said to help. -/
def Router.fallbackWouldHelp (verdict : Capability) : Bool :=
  mentions verdict.reason "fallback is disabled" ||
  (!router.allowSqlFallback && mentions verdict.remedy "allow_sql_fallback" &&
    decide (verdict.remedy ≠ registerRemedy))

/-- `engine_for`. -/
def engineFor : Routed :=
  let verdict := capability S nativeHas router operation table needs exclude shape
  if verdict.ok then
    match verdict.engine.filter fun kind => (router.engines kind).isSome with
    | some kind => .engine kind
    | none => .unreachable ("an engine accepted the request as " ++
        (verdict.engine.elim "an unnamed engine" EngineKind.value) ++
        ", which is not configured on this connection") ""
  else if router.fallbackWouldHelp verdict then .fallbackRequired verdict.reason verdict.remedy
  else .unreachable verdict.reason verdict.remedy

end

end DeltaSwamp.Routing
