import DeltaSwamp.Identity.Reserve
import DeltaSwamp.Metadata.Coverage
import DeltaSwamp.Table.Log

/-!
# The metadata a RESTORE commits

`_restored_protocol_check` and `_restored_metadata`: what is refused, and what
the target's metadata becomes.
-/

namespace DeltaSwamp.Restore

open Metadata List

/-- A `protocol` action. What it lists for readers it lists for writers too. -/
structure TableProtocol extends Protocol where
  listed : ∀ f ∈ readerFeatures.getD [], f ∈ writerFeatures.getD []

/-- A `metaData` action, with its schema as text. -/
structure MetaData where
  id : String
  name : Option String
  description : Option String
  schemaString : String
  partitionColumns : List String
  configuration : Config
  deriving DecidableEq

inductive Refusal where
  /-- Features, or versions, the protocol no longer has. -/
  | unsupported (gone : List String)
  | replaced
  | partitioning
  | mappingMode
  | identityColumns
  deriving DecidableEq

/-- `_RESTORE_KEEPS`. -/
def restoreKeeps : List String :=
  ["delta.enableInCommitTimestamps", "delta.inCommitTimestampEnablementVersion",
    "delta.inCommitTimestampEnablementTimestamp", "delta.enableRowTracking",
    "delta.rowTracking.materializedRowIdColumnName",
    "delta.rowTracking.materializedRowCommitVersionColumnName", "delta.rowTrackingSuspended",
    "delta.columnMapping.maxColumnId"]

def listedFeatures (protocol : Protocol) : List String :=
  protocol.readerFeatures.getD [] ++ protocol.writerFeatures.getD []

/-- `_restored_protocol_check`. -/
def restoredProtocolCheck (now then' : Protocol) : Except Refusal Unit :=
  let gone := (listedFeatures then').filter fun f => f ∉ listedFeatures now
  if gone ≠ [] ∨ now.minReaderVersion < then'.minReaderVersion ∨
      now.minWriterVersion < then'.minWriterVersion then .error (.unsupported (sortedNames gone))
  else .ok ()

/-- Whether two actions agree in all that is compared. -/
def MetaData.agrees (a b : MetaData) : Bool :=
  a.schemaString = b.schemaString && a.partitionColumns = b.partitionColumns &&
    Table.sameConfiguration a.configuration b.configuration && a.description = b.description &&
    a.name = b.name

/-- Whether a schema's text names an identity property. -/
def namesIdentity (schemaString : String) : Bool :=
  Text.contains schemaString.toList "delta.identity.".toList

/-- The target's properties, but for those a restore keeps. -/
def kept (now then' : Config) : Config :=
  restoreKeeps.foldl (fun config key =>
    match now.get key with
    | some value => config.set key value
    | none => config.remove key) then'

section
variable (py : Python)

/-- `_restored_metadata`: none when the current metadata stays. -/
def restoredMetadata (current target : MetaData) : Except Refusal (Option MetaData) :=
  if current.agrees target then .ok none
  else if current.id ≠ target.id then .error .replaced
  else if current.partitionColumns ≠ target.partitionColumns then .error .partitioning
  else if columnMappingMode py current.configuration ≠ columnMappingMode py target.configuration
    then .error .mappingMode
  else if current.schemaString ≠ target.schemaString ∧
      (namesIdentity current.schemaString || namesIdentity target.schemaString) then
    .error .identityColumns
  else
    let restored := { target with
      configuration := kept current.configuration target.configuration }
    .ok (if restored.agrees current then none else some restored)

/-- The metadata in force after a restore; the protocol stays the current one. -/
def restored (now then' : Protocol) (current target : MetaData) : Except Refusal MetaData := do
  restoredProtocolCheck now then'
  let metadata ← restoredMetadata py current target
  .ok (metadata.getD current)

end

section
variable {py : Python} {now then' : Protocol} {current target m : MetaData}

theorem get_kept_aux (now : Config) (keys : List String) (then' : Config) (key : String) :
    (keys.foldl (fun config key =>
      match now.get key with
      | some value => config.set key value
      | none => config.remove key) then').get key =
      if key ∈ keys then now.get key else then'.get key := by
  induction keys generalizing then' with
  | nil => simp
  | cons k keys ih =>
    rw [foldl_cons, ih]
    by_cases hrest : key ∈ keys
    · simp [hrest]
    · cases hnow : now.get k with
      | none =>
        by_cases hkey : key = k
        · subst hkey
          simp [Config.get_remove, hnow]
        · simp [Config.get_remove, hkey, hrest]
      | some value =>
        by_cases hkey : key = k
        · subst hkey
          simp [Config.get_set, hnow]
        · simp [Config.get_set, hkey, hrest]

theorem get_kept (now then' : Config) (key : String) :
    (kept now then').get key = if key ∈ restoreKeeps then now.get key else then'.get key :=
  get_kept_aux now restoreKeeps then' key

theorem agrees_iff {a b : MetaData} : a.agrees b = true ↔
    a.schemaString = b.schemaString ∧ a.partitionColumns = b.partitionColumns ∧
      (∀ key, a.configuration.get key = b.configuration.get key) ∧
      a.description = b.description ∧ a.name = b.name := by
  simp only [MetaData.agrees, Bool.and_eq_true, decide_eq_true_eq, Table.sameConfiguration_iff,
    and_assoc]

/-- What an accepted restore puts in force: the target's schema, and its
properties but for those that are kept. -/
structure Restored (current target m : MetaData) : Prop where
  id : m.id = current.id
  schema : m.schemaString = target.schemaString
  partitioning : m.partitionColumns = current.partitionColumns
  properties : ∀ key, m.configuration.get key =
    if key ∈ restoreKeeps then current.configuration.get key else target.configuration.get key
  identity : current.schemaString = target.schemaString ∨
    namesIdentity current.schemaString = false ∧ namesIdentity target.schemaString = false

theorem restored_of_restoredMetadata {r : Option MetaData}
    (h : restoredMetadata py current target = .ok r) :
    Restored current target (r.getD current) := by
  unfold restoredMetadata at h
  split_ifs at h with hsame hid hpartitions hmode hidentity
  · cases h
    obtain ⟨hschema, hpartitions, hproperties, -, -⟩ := agrees_iff.mp hsame
    refine ⟨rfl, hschema, rfl, fun key => ?_, .inl hschema⟩
    rw [Option.getD_none, hproperties, ite_self]
  · push Not at hid hpartitions
    have hspelled : current.schemaString = target.schemaString ∨
        namesIdentity current.schemaString = false ∧ namesIdentity target.schemaString = false := by
      by_cases hschema : current.schemaString = target.schemaString
      · exact .inl hschema
      · right
        simpa [hschema] using hidentity
    cases h
    by_cases hunchanged : MetaData.agrees { target with
      configuration := kept current.configuration target.configuration } current
    · rw [if_pos hunchanged, Option.getD_none]
      obtain ⟨hschema, -, hproperties, -, -⟩ := agrees_iff.mp hunchanged
      exact ⟨rfl, hschema.symm, rfl,
        fun key => (hproperties key).symm.trans (get_kept _ _ key), .inl hschema.symm⟩
    · rw [if_neg hunchanged, Option.getD_some]
      exact ⟨hid.symm, rfl, hpartitions.symm, get_kept _ _, hspelled⟩

theorem restored_of_ok (h : restored py now then' current target = .ok m) :
    restoredProtocolCheck now then' = .ok () ∧ Restored current target m := by
  unfold restored at h
  cases hcheck : restoredProtocolCheck now then' with
  | error e =>
    rw [hcheck] at h
    cases h
  | ok _ =>
    cases hmetadata : restoredMetadata py current target with
    | error e =>
      rw [hcheck, hmetadata] at h
      cases h
    | ok r =>
      rw [hcheck, hmetadata] at h
      cases h
      exact ⟨rfl, restored_of_restoredMetadata hmetadata⟩

/-- An accepted restore: every listed feature is still listed, and no version is lower. -/
theorem protocolCheck_ok (h : restoredProtocolCheck now then' = .ok ()) :
    (∀ f ∈ listedFeatures then', f ∈ listedFeatures now) ∧
      then'.minWriterVersion ≤ now.minWriterVersion := by
  unfold restoredProtocolCheck at h
  dsimp only at h
  split_ifs at h with hgone
  push Not at hgone
  obtain ⟨hnone, -, hwriter⟩ := hgone
  refine ⟨fun f hf => ?_, hwriter⟩
  have hkept := filter_eq_nil_iff.mp hnone f hf
  simpa using hkept

end

open Metadata Identity Progression

def constraintFeatures (config : Config) : List String :=
  if config.any fun e => startsWith e.1 constraintsPrefix then ["checkConstraints"] else []

/-- The features a legacy writer version implies. -/
def impliedFeatures (protocol : Protocol) : List String :=
  if 7 ≤ protocol.minWriterVersion then [] else legacyWriter protocol.minWriterVersion

section
variable (py : Python) (loads : String → DataType)

/-- The features a schema's types and column metadata and the properties use;
`loads` reads a schema's text. -/
def usedFeatures (m : MetaData) : List String :=
  neededFeatures py ⟨loads m.schemaString, m.partitionColumns, m.configuration⟩ ++
    constraintFeatures m.configuration

def columnIds (schema : DataType) : List Int :=
  schema.walk.filterMap fun f => match f.id with
    | some (.int n) => some n
    | _ => none

/-- `delta.columnMapping.maxColumnId` is at least `n`. -/
def Records (config : Config) (n : Int) : Prop :=
  ∃ top, ((config.get cmMax).bind fun value => py.int (.str value)) = some top ∧ n ≤ top

/-- The ids two versions show to have been assigned. -/
def Assigned (current target : MetaData) (n : Int) : Prop :=
  ∃ m ∈ [current, target], Records py m.configuration n ∨ n ∈ columnIds (loads m.schemaString)

/-- The identity column of a name, as a schema declares it. -/
def identityColumn (schema : DataType) (column : String) : Option IdentitySpec :=
  (schema.fields.find? fun f =>
      f.name = column && f.metadata.any fun e => startsWith e.1 "delta.identity.").bind
    fun f => identitySpec ⟨py.int, py.int_int⟩ f.name f.metadata

/-- No column's mark is behind the one it had. -/
def MarksKept (before after : DataType) : Prop :=
  ∀ column spec spec', identityColumn py before column = some spec →
    identityColumn py after column = some spec' →
    ∀ mark ∈ spec.highWaterMark, ∃ mark' ∈ spec'.highWaterMark, Within spec.step mark mark'

/-- The settings of in-commit timestamps and row tracking. -/
def historySettings : List String :=
  ["delta.enableInCommitTimestamps", "delta.inCommitTimestampEnablementVersion",
    "delta.inCommitTimestampEnablementTimestamp", "delta.enableRowTracking",
    "delta.rowTracking.materializedRowIdColumnName",
    "delta.rowTracking.materializedRowCommitVersionColumnName", "delta.rowTrackingSuspended"]

/-- The protocol serves what is restored of the target, and history does not go back. -/
structure Carried (now then' : TableProtocol) (current target m : MetaData) : Prop where
  supported : ∀ f ∈ usedFeatures py loads m, supports then'.toProtocol f → supports now.toProtocol f
  id : m.id = current.id
  columnIds : ∀ n, Assigned py loads current target n → Records py m.configuration n
  marks : MarksKept py (loads current.schemaString) (loads m.schemaString)
  settings : ∀ key ∈ historySettings, m.configuration.get key = current.configuration.get key

/-- The features implied by the target's version are not gone, the largest id
recorded is the current one, and no identity mark goes back unseen. -/
structure Serves (now then' : TableProtocol) (current target : MetaData) : Prop where
  implied : ∀ f ∈ impliedFeatures then'.toProtocol, f ∈ usedFeatures py loads target →
    f ∈ supportedFeatures now.toProtocol
  columnIds : ∀ n, Assigned py loads current target n → Records py current.configuration n
  unseen : namesIdentity current.schemaString = false → namesIdentity target.schemaString = false →
    MarksKept py (loads current.schemaString) (loads target.schemaString)

end

section
variable {py : Python} {loads : String → DataType} {now then' : TableProtocol}
  {current target m : MetaData}

variable {f : String}

theorem mem_legacyWriter {n : Nat} (h : f ∈ legacyWriter n) : f ∈ legacyWriter 6 := by
  unfold legacyWriter at h
  split at h
  · revert f
    decide
  · revert f
    decide
  · revert f
    decide
  · revert f
    decide
  · exact h
  · cases h

theorem mem_impliedFeatures {p : Protocol} (h : f ∈ impliedFeatures p) :
    f ∈ legacyWriter 6 ∧ f ∈ supportedFeatures p := by
  unfold impliedFeatures at h
  split_ifs at h with hwriter
  · cases h
  · refine ⟨mem_legacyWriter h, ?_⟩
    rw [supportedFeatures, if_neg hwriter]
    exact h

theorem previewOf_legacy (h : f ∈ legacyWriter 6) : previewOf f = none := by
  have hall : ∀ f ∈ legacyWriter 6, previewOf f = none := by decide
  exact hall f h

theorem supports_legacy {p : Protocol} (h : f ∈ legacyWriter 6) :
    supports p f ↔ f ∈ supportedFeatures p := by
  rw [supports, hasPreview, previewOf_legacy h]
  simp

theorem mem_configFeatures {config : Config} :
    f ∈ configFeatures py config ↔
      (∃ key, (key, f) ∈ enablingKeys ∧ setsTrue py config key = true) ∨
        (policyV2 py config = true ∧ f = "v2Checkpoint") ∨
        (mapped py config = true ∧ f = "columnMapping") := by
  have hpolicy : (f ∈ if policyV2 py config then ["v2Checkpoint"] else []) ↔
      policyV2 py config = true ∧ f = "v2Checkpoint" := by
    by_cases h : policyV2 py config = true <;> simp [h]
  have hmapped : (f ∈ if mapped py config then ["columnMapping"] else []) ↔
      mapped py config = true ∧ f = "columnMapping" := by
    by_cases h : mapped py config = true <;> simp [h]
  rw [configFeatures, mem_append, mem_append, hpolicy, hmapped, or_assoc]
  simp [mem_map, mem_filter]

theorem configFeatures_restored (h : Restored current target m) (hf : f ∈ legacyWriter 6) :
    f ∈ configFeatures py m.configuration ↔ f ∈ configFeatures py target.configuration := by
  have hget : ∀ key, key ∉ restoreKeeps →
      m.configuration.get key = target.configuration.get key := by
    intro key hkey
    rw [h.properties, if_neg hkey]
  have hkeys : ∀ e ∈ enablingKeys, e.2 ∈ legacyWriter 6 → e.1 ∉ restoreKeeps := by decide
  have htrue : ∀ key, (key, f) ∈ enablingKeys →
      setsTrue py m.configuration key = setsTrue py target.configuration key := by
    intro key hkey
    rw [setsTrue, setsTrue, hget key (hkeys (key, f) hkey hf)]
  have hpolicy : policyV2 py m.configuration = policyV2 py target.configuration := by
    rw [policyV2, policyV2, hget policyKey (by decide)]
  have hmapped : mapped py m.configuration = mapped py target.configuration :=
    mapped_of_get (hget cmMode (by decide))
  rw [mem_configFeatures, mem_configFeatures, hpolicy, hmapped]
  constructor
  · rintro (⟨key, hkey, hset⟩ | hrest)
    · exact .inl ⟨key, hkey, htrue key hkey ▸ hset⟩
    · exact .inr hrest
  · rintro (⟨key, hkey, hset⟩ | hrest)
    · exact .inl ⟨key, hkey, (htrue key hkey).trans hset⟩
    · exact .inr hrest

theorem startsConstraint_iff {config : Config} :
    (config.any fun e => startsWith e.1 constraintsPrefix) = true ↔
      ∃ key, startsWith key constraintsPrefix = true ∧ config.get key ≠ none := by
  rw [any_eq_true]
  constructor
  · rintro ⟨e, he, hstarts⟩
    refine ⟨e.1, hstarts, ?_⟩
    rw [Ne, Config.get_eq_none_iff]
    push Not
    exact ⟨e, he, rfl⟩
  · rintro ⟨key, hstarts, hget⟩
    rw [Ne, Config.get_eq_none_iff] at hget
    push Not at hget
    obtain ⟨e, he, rfl⟩ := hget
    exact ⟨e, he, hstarts⟩

theorem constraintFeatures_restored (h : Restored current target m) :
    constraintFeatures m.configuration = constraintFeatures target.configuration := by
  have hkeys : ∀ key ∈ restoreKeeps, startsWith key constraintsPrefix = false := by decide
  have hany : (m.configuration.any fun e => startsWith e.1 constraintsPrefix) =
      target.configuration.any fun e => startsWith e.1 constraintsPrefix := by
    rw [Bool.eq_iff_iff, startsConstraint_iff, startsConstraint_iff]
    refine exists_congr fun key => and_congr_right fun hstarts => ?_
    have hkey : key ∉ restoreKeeps := by
      intro hkey
      rw [hkeys key hkey] at hstarts
      cases hstarts
    rw [h.properties, if_neg hkey]
  rw [constraintFeatures, constraintFeatures, hany]

theorem usedFeatures_restored (h : Restored current target m) (hf : f ∈ legacyWriter 6) :
    f ∈ usedFeatures py loads m ↔ f ∈ usedFeatures py loads target := by
  simp only [usedFeatures, neededFeatures, mem_append, h.schema,
    configFeatures_restored h hf, constraintFeatures_restored h]

theorem supports_of_listed (hcheck : restoredProtocolCheck now.toProtocol then'.toProtocol = .ok ())
    (hwriter : 7 ≤ then'.minWriterVersion) (hf : supports then'.toProtocol f) :
    supports now.toProtocol f := by
  obtain ⟨hlisted, hversion⟩ := protocolCheck_ok hcheck
  apply supports_mono _ hf
  intro g hg
  rw [supportedFeatures, if_pos hwriter] at hg
  rw [supportedFeatures, if_pos (hwriter.trans hversion)]
  rcases mem_append.mp (hlisted g (mem_append_right _ hg)) with hreader | hwriters
  · exact now.listed g hreader
  · exact hwriters

theorem supported_iff (hcheck : restoredProtocolCheck now.toProtocol then'.toProtocol = .ok ())
    (h : Restored current target m) :
    (∀ f ∈ usedFeatures py loads m, supports then'.toProtocol f → supports now.toProtocol f) ↔
      ∀ f ∈ impliedFeatures then'.toProtocol, f ∈ usedFeatures py loads target →
        f ∈ supportedFeatures now.toProtocol := by
  constructor
  · intro hsupported f hf hused
    obtain ⟨hlegacy, hthen⟩ := mem_impliedFeatures hf
    exact (supports_legacy hlegacy).mp
      (hsupported f ((usedFeatures_restored h hlegacy).mpr hused) (.inl hthen))
  · intro himplied f hused hthen
    by_cases hwriter : 7 ≤ then'.minWriterVersion
    · exact supports_of_listed hcheck hwriter hthen
    · have himplies : impliedFeatures then'.toProtocol = supportedFeatures then'.toProtocol := by
        rw [impliedFeatures, supportedFeatures, if_neg hwriter, if_neg hwriter]
      have hlegacy : ∀ g ∈ supportedFeatures then'.toProtocol, g ∈ legacyWriter 6 :=
        fun g hg => (mem_impliedFeatures (himplies ▸ hg)).1
      have hmem : f ∈ supportedFeatures then'.toProtocol := by
        rcases hthen with hmem | hpreview
        · exact hmem
        · obtain ⟨preview, hname, hpreview⟩ := (Option.any_eq_true _ _).mp hpreview
          have hold := hlegacy preview (by simpa using hpreview)
          have hnone : ∀ name ∈ legacyWriter 6, ∀ f, previewOf f ≠ some name := by
            intro name hmem f hname
            unfold previewOf at hname
            split at hname
            all_goals cases hname
            all_goals revert hmem; decide
          exact absurd hname (hnone preview hold f)
      have hold := hlegacy f hmem
      exact .inl (himplied f (himplies ▸ hmem) ((usedFeatures_restored h hold).mp hused))

theorem MarksKept.refl (schema : DataType) : MarksKept py schema schema := by
  intro column spec spec' hspec hspec' mark hmark
  obtain rfl : spec = spec' := Option.some.inj (hspec.symm.trans hspec')
  exact ⟨mark, hmark, Within.refl _ _⟩

theorem records_restored (h : Restored current target m) (n : Int) :
    Records py m.configuration n ↔ Records py current.configuration n := by
  rw [Records, Records, h.properties, if_pos (by decide)]

theorem marks_iff (h : Restored current target m) :
    MarksKept py (loads current.schemaString) (loads m.schemaString) ↔
      (namesIdentity current.schemaString = false → namesIdentity target.schemaString = false →
        MarksKept py (loads current.schemaString) (loads target.schemaString)) := by
  rw [h.schema]
  constructor
  · intro hmarks _ _
    exact hmarks
  · intro hunseen
    rcases h.identity with hsame | ⟨hcurrent, htarget⟩
    · rw [hsame]
      exact .refl _
    · exact hunseen hcurrent htarget

/-- An accepted restore carries the table on exactly when the protocol still has
what the target's legacy version implied and the target's metadata uses, the
current record of column ids is the largest, and no identity mark goes back
under a spelling the check does not see. -/
theorem restored_carries (hrestored :
      restored py now.toProtocol then'.toProtocol current target = .ok m) :
    Carried py loads now then' current target m ↔ Serves py loads now then' current target := by
  obtain ⟨hcheck, h⟩ := restored_of_ok hrestored
  have hsettings : ∀ key ∈ historySettings,
      m.configuration.get key = current.configuration.get key := by
    intro key hkey
    have hkept : ∀ key ∈ historySettings, key ∈ restoreKeeps := by decide
    rw [h.properties, if_pos (hkept key hkey)]
  constructor
  · intro hcarried
    exact ⟨(supported_iff hcheck h).mp hcarried.supported,
      fun n hn => (records_restored h n).mp (hcarried.columnIds n hn),
        (marks_iff h).mp hcarried.marks⟩
  · intro hserves
    exact ⟨(supported_iff hcheck h).mpr hserves.implied, h.id,
      fun n hn => (records_restored h n).mpr (hserves.columnIds n hn),
      (marks_iff h).mpr hserves.unseen, hsettings⟩

end

/-- A schema without columns. -/
def emptySchema : String := "\x7b\"type\":\"struct\",\"fields\":[]\x7d"

/-- Metadata of a table with column mapping. -/
def mappedMetadata (maxColumnId : String) (constraints : Config) : MetaData :=
  ⟨"t", none, none, emptySchema, [], [(cmMode, "name"), (cmMax, maxColumnId)] ++ constraints⟩

def positive : Config := [("delta.constraints.c", "x > 0")]

def legacyProtocol : TableProtocol := ⟨⟨2, 5, none, none⟩, by simp⟩

/-- Upgraded to table features, with `checkConstraints` dropped since. -/
def droppedProtocol : TableProtocol :=
  ⟨⟨2, 7, none, some ["appendOnly", "columnMapping", "invariants"]⟩, by simp⟩

def keptProtocol : TableProtocol :=
  ⟨⟨2, 7, none, some ["appendOnly", "checkConstraints", "columnMapping", "invariants"]⟩, by simp⟩

def noColumns : String → DataType := fun _ => .struct []

theorem restored_accepted (now : TableProtocol)
    (h : restoredProtocolCheck now.toProtocol legacyProtocol.toProtocol = .ok ()) :
    restored ascii now.toProtocol legacyProtocol.toProtocol (mappedMetadata "3" [])
      (mappedMetadata "2" positive) = .ok (mappedMetadata "3" positive) := by
  rw [restored, h]
  rfl

theorem restored_carries_kept : Carried ascii noColumns keptProtocol legacyProtocol
    (mappedMetadata "3" []) (mappedMetadata "2" positive) (mappedMetadata "3" positive) := by
  refine (restored_carries (restored_accepted keptProtocol rfl)).mpr ⟨?_, ?_, ?_⟩
  · decide
  · rintro n ⟨m, hm, hn | hn⟩
    · obtain ⟨top, htop, hle⟩ := hn
      rcases mem_pair.mp hm with rfl | rfl
      · exact ⟨top, htop, hle⟩
      · obtain rfl : 2 = top := Option.some.inj htop
        exact ⟨3, rfl, by omega⟩
    · cases hn
  · exact fun _ _ => .refl _

theorem restore_drops_feature : ¬ ∀ (py : Python) (loads : String → DataType)
    (now then' : TableProtocol) (current target m : MetaData),
    restored py now.toProtocol then'.toProtocol current target = .ok m →
    Carried py loads now then' current target m := by
  intro h
  have hcarried := h ascii noColumns droppedProtocol legacyProtocol _ _ _
    (restored_accepted droppedProtocol rfl)
  have hsupported := hcarried.supported "checkConstraints" (by decide) (by decide)
  revert hsupported
  decide

end DeltaSwamp.Restore
