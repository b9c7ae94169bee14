import DeltaSwamp.Metadata.Growth
import DeltaSwamp.Metadata.Properties
import DeltaSwamp.Run

/-!
# Histories of metadata changes

Every operation of `engine/metadata.py` as one event, the state each accepted
event leaves, and where the fields of the schema are after it.

`initial_actions` of `engine/metadata.py`: the protocol, the metadata and the
clustering domain of version 0 of a catalog-managed table.
-/

namespace DeltaSwamp.Metadata

/-- The protocol the catalog requires. -/
structure Required where
  minReaderVersion : Option Nat
  readerFeatures : List String
  writerFeatures : List String

/-- What `initial_actions` is called with. -/
structure NewTable where
  schema : RawType
  required : Required
  configuration : List (String × RawValue)
  partitionColumns : List String
  clusterBy : List String

/-- The texts drawn for the ids of columns, and for the two row-tracking columns. -/
structure Draws where
  column : Int → String
  rowId : String
  rowCommitVersion : String

section
variable (py : Python)

/-- The loop over the caller's properties: the configuration and the signalled features. -/
def initialConfig (draft : DataType) (config : Config) (signals : List String) :
    List (String × RawValue) → Except Refused (Config × List String)
  | [] => .ok (config, signals)
  | (rawKey, raw) :: rest =>
    let key := canonicalKey py rawKey
    if startsWith key featurePrefix then
      if py.lower raw.str ≠ "supported" ∧ py.lower raw.str ≠ "enabled" then
        .error (.badProperty key)
      else initialConfig draft config
        (signals ++ [canonicalFeature py (dropStart key featurePrefix)]) rest
    else if key ∈ knownKeys ∨ key ∈ booleanKeys then do
      let value ← normaliseValue py key raw draft
      initialConfig draft (config.set key value) signals rest
    else
      let value := match raw with
        | .bool _ => py.lower raw.str
        | _ => raw.str
      initialConfig draft (config.set key value) signals rest

/-- `dict.setdefault`. -/
def Config.setDefault (config : Config) (key value : String) : Config :=
  if (config.get key).isSome then config else config.set key value

def isTrue (config : Config) (key : String) : Bool :=
  py.lower ((config.get key).getD "") = "true"

/-- The features the properties of a new table imply, and the properties these bring. -/
def impliedFeatures (draws : Draws) (config : Config) (features : List String) :
    Except Refused (Config × List String) := do
  let enabled := (enabling.filter fun e => isTrue py config e.1).map Prod.snd
  let policy := if py.lower ((config.get "delta.checkpointPolicy").getD "") = "v2" then
    ["v2Checkpoint"] else []
  let tracking := isTrue py config "delta.enableRowTracking"
  let features := features ++ enabled ++ policy ++ (if tracking then ["rowTracking"] else [])
  let config := if tracking then
      (config.setDefault "delta.rowTracking.materializedRowIdColumnName"
        ("_row-id-col-" ++ draws.rowId)).setDefault
        "delta.rowTracking.materializedRowCommitVersionColumnName"
        ("_row-commit-version-col-" ++ draws.rowCommitVersion)
    else config
  if "catalogManaged" ∈ features ∨ "catalogOwned-preview" ∈ features then
    if (config.get inCommit).getD "true" ≠ "true" then .error .catalogTimestamps
    return (config.set inCommit "true", features ++ ["inCommitTimestamp"])
  return (config, features)

/-- The partition columns, in the schema's own spelling. -/
def partitionsOf (fields : List Field) (partitions : List String) :
    List String → Except Refused (List String)
  | [] => .ok partitions
  | column :: rest =>
    match (fields.filter fun f => py.lower f.name = py.lower column).getLast? with
    | none => .error (.noColumn [column])
    | some f =>
      match f.type with
      | .primitive _ =>
        if f.name ∈ partitions then .error (.listedTwice column)
        else partitionsOf fields (partitions ++ [f.name]) rest
      | _ => .error (.notPrimitive column)

/-- Version 0's protocol. -/
def initialProtocol (required : Required) (features : List String) : Protocol :=
  let writers := ((withFeatures ⟨1, 1, none, none⟩ features).bind Protocol.writerFeatures).getD []
  { minReaderVersion := max 3 (required.minReaderVersion.getD 3)
    minWriterVersion := 7
    readerFeatures := some (sortedNames (writers.filter needsReader ++ required.readerFeatures))
    writerFeatures := some (sortedNames (writers ++ required.readerFeatures)) }

def initialActions (draws : Draws) (table : NewTable) : Except Refused TableState := do
  if table.configuration.any fun e => e.2 = .none then .error (.badProperty "")
  let valid ← validType py "the table schema" table.schema
  let fields ← match valid with
    | .struct fields => .ok fields
    | _ => .error (.notDeltaType "the table schema")
  let (config, signals) ← initialConfig py valid [] [] table.configuration
  if (config.get cmMode).any fun mode => mode ∉ ["none", "name", "id"] then
    .error (.badProperty cmMode)
  if cdfEnabled py config && fields.any (fun f => py.lower f.name ∈ cdfReserved) then
    .error (.changeFeedReserved "")
  let (config, features) ← impliedFeatures py draws config
    (table.required.writerFeatures ++ table.required.readerFeatures ++ signals)
  let columnMapping := mapped py config
  checkNames py columnMapping [] fields
  let assigned := assignIds (drawn draws.column) fields 1
  let schema := DataType.struct (if columnMapping then assigned.1 else fields)
  let config := if columnMapping then config.set cmMax (py.str (assigned.2 - 1)) else config
  let partitions ← partitionsOf py schema.fields [] table.partitionColumns
  if partitions ≠ [] && partitions.length = schema.fields.length then
    .error (.lastDataColumn "")
  if table.clusterBy ≠ [] && partitions ≠ [] then .error .partitioned
  let draft : TableState := ⟨-1, ⟨1, 1, none, none⟩, ⟨schema, [], config⟩, none⟩
  let clustered ← if table.clusterBy = [] then .ok .nothing else clusterBy py draft table.clusterBy
  let needed := features ++ schema.typeFeatures py.lower ++ columnFeatures schema ++
    (if columnMapping then ["columnMapping"] else []) ++
    (if table.clusterBy = [] then [] else ["clustering", "domainMetadata"])
  return {
    version := 0
    protocol := initialProtocol table.required needed
    metadata := ⟨schema, partitions, config⟩
    clustering := clustered.clustering }

end

/-- A metadata change, with the texts `uuid4` returns while it is computed: for
each id, what the field with that id is named after. -/
inductive Event where
  | addColumns (newFields : List RawField) (uuid : Int → String)
  | mergeSchema (data : List ArrowField) (uuid : Int → String)
  | renameColumn (old new : String)
  | dropColumn (column : String)
  | alterColumnType (column new : String)
  | addConstraints (constraints : List (String × String))
  | setProperties (properties : List (String × RawValue))
  | addFeature (feature : String)
  | unsetProperties (keys : List String) (ifExists : Bool)
  | clusterBy (columns : List String)

/-- What the event's operation returns. -/
def act (py : Python) (state : TableState) : Event → Except Refused Change
  | .addColumns newFields uuid => addColumns py uuid state newFields
  | .mergeSchema data uuid => mergeSchema py uuid state data
  | .renameColumn old new => renameColumn py state old new
  | .dropColumn column => dropColumn py state column
  | .alterColumnType column new => alterColumnType py state column new
  | .addConstraints constraints => addConstraints py state constraints
  | .setProperties properties => setProperties py state properties
  | .addFeature feature => addFeature py state feature
  | .unsetProperties keys ifExists => unsetProperties py state keys ifExists
  | .clusterBy columns => clusterBy py state columns

/-- The state an accepted event leaves. -/
def advance (py : Python) (state : TableState) (e : Event) : Option TableState :=
  match act py state e with
  | .ok change => some (state.apply change)
  | .error _ => none

section
variable (py : Python)

/-- Where the column with that name stands. -/
def target (state : TableState) (column : String) : Option Position :=
  match splitIdentifier py column >>= find py state.schema.fields with
  | .ok found => some found.position
  | .error _ => none

/-- The fields an event takes out of the schema. -/
def gone (state : TableState) : Event → List Label
  | .dropColumn column => state.schema.places.filter fun l =>
    (target py state column).any fun p => p.isPrefixOf l.position
  | _ => []

/-- Where a field that stays is after the event, and under which name. -/
def follow (state : TableState) (e : Event) (l : Label) : Label :=
  match e with
  | .dropColumn column => (target py state column).elim l fun p => l.moved p
  | .renameColumn old new =>
    match target py state old, newPath py new with
    | some p, .ok parts => if l.position = p then { l with name := parts.getLastD "" } else l
    | _, _ => l
  | _ => l

end

section
variable {py : Python} {state : TableState} {change : Change}

theorem find_ok {fields : List Field} {path : List String} {found : Found}
    (h : find py fields path = .ok found) :
    (DataType.struct fields).fieldAt found.position = some found.target ∧
      found.container[found.index]? = some found.target ∧ path ≠ [] ∧
      py.lower found.target.name = py.lower (path.getLastD "") ∧
      (path.length = 1 → found.position = [.field found.index] ∧ found.container = fields) := by
  induction path generalizing fields found with
  | nil => cases h
  | cons name rest ih =>
    rw [find] at h
    split at h
    · cases h
    · rename_i f i hfind
      obtain ⟨hname, as, bs, hsplit, -⟩ := List.find?_eq_some_iff_append.mp hfind
      have hmem : (f, i) ∈ fields.zipIdx := hsplit ▸ by simp
      have hfield : fields[i]? = some f := List.mem_zipIdx_iff_getElem?.mp hmem
      by_cases hrest : rest = []
      · rw [if_pos hrest] at h
        cases h
        subst hrest
        refine ⟨by simpa [DataType.fieldAt] using hfield, hfield, by simp, ?_, by simp⟩
        simpa using hname
      · rw [if_neg hrest] at h
        split at h
        · rename_i child htype
          obtain ⟨r, hr, rfl⟩ := Result.map_eq_ok_iff.mp h
          obtain ⟨hat, hindex, -, hlower, -⟩ := ih hr
          refine ⟨?_, hindex, by simp, ?_, ?_⟩
          · have hne : r.position ≠ [] := fieldAt_ne_nil hat
            simp only [DataType.fieldAt, if_neg hne, hfield, Option.bind_some, htype, hat]
          · cases rest with
            | nil => exact absurd rfl hrest
            | cons a rest => simpa using hlower
          · intro hlength
            cases rest with
            | nil => exact absurd rfl hrest
            | cons a rest => simp at hlength
        · cases h

theorem target_eq {column : String} {path : List String} {found : Found}
    (hpath : splitIdentifier py column = .ok path)
    (hfound : find py state.schema.fields path = .ok found) :
    target py state column = some found.position := by
  rw [target, hpath]
  simp only [bind, Except.bind, hfound]

theorem fieldAt_of_fields {schema : DataType} {p : Position} {f : Field}
    (h : (DataType.struct schema.fields).fieldAt p = some f) : schema.fieldAt p = some f := by
  cases schema with
  | struct fields => exact h
  | _ =>
    simp only [DataType.fields] at h
    cases p with
    | nil => simp [DataType.fieldAt] at h
    | cons s p => cases s <;> simp [DataType.fieldAt] at h

theorem requireColumnMapping_ok (h : requireColumnMapping py state = .ok ()) :
    mapped py state.configuration = true ∧ "columnMapping" ∈ supportedFeatures state.protocol := by
  unfold requireColumnMapping at h
  split_ifs at h with hmapped hfeature
  exact ⟨by simpa using hmapped, by simpa using hfeature⟩

theorem addColumns_ok {uuid : Int → String} {newFields : List RawField}
    (h : addColumns py uuid state newFields = .ok change) :
    change = .nothing ∨ ∃ added,
      checkNewFields py state.configuration
        (state.schema.fields.map fun f => py.lower f.name) newFields = .ok () ∧
      newFields.mapM (newColumn py state.protocol) = .ok added ∧
      checkNames py (mapped py state.configuration) [] added = .ok () ∧
      change.protocol = protocolFor state.protocol (typeFeaturesOf py.lower added) ∧
      change.clustering = none ∧
      ((mapped py state.configuration = false ∧ change.metadata = some { state.metadata with
          schema := .struct (state.schema.fields ++ added) }) ∨
        (mapped py state.configuration = true ∧ ∃ highest, maxColumnId py state = .ok highest ∧
          change.metadata = some { state.metadata with
            schema := .struct (state.schema.fields ++
              (assignIds (drawn uuid) added (highest + 1)).1)
            configuration := state.configuration.set cmMax
              (py.str ((assignIds (drawn uuid) added (highest + 1)).2 - 1)) })) := by
  unfold addColumns at h
  obtain ⟨⟨⟩, hcheck, h⟩ := Result.bind_eq_ok_iff.mp h
  by_cases hempty : newFields = []
  · left
    rw [if_pos hempty] at h
    exact (Result.pure_eq_ok_iff.mp h).symm
  · right
    simp only [if_neg hempty] at h
    obtain ⟨added, hadded, h⟩ := Result.bind_eq_ok_iff.mp h
    obtain ⟨⟨⟩, hnames, h⟩ := Result.bind_eq_ok_iff.mp h
    apply Exists.intro added
    refine ⟨hcheck, hadded, hnames, ?_⟩
    by_cases hmapped : mapped py state.configuration = true
    · rw [if_pos hmapped] at h
      obtain ⟨highest, hhighest, h⟩ := Result.bind_eq_ok_iff.mp h
      cases h
      exact ⟨rfl, rfl, .inr ⟨hmapped, highest, hhighest, rfl⟩⟩
    · rw [if_neg hmapped] at h
      cases h
      exact ⟨rfl, rfl, .inl ⟨by simpa using hmapped, rfl⟩⟩

/-- What a merge adds the protocol must support. -/
def mergedFeatures (py : Python) (m : Merged (List Field)) : List String :=
  (if m.widened = [] then [] else ["typeWidening"]) ++
    typeFeaturesOf py.lower (fieldsAt (.struct m.merged) m.added) ++
    m.widened.flatMap fun w => (DataType.primitive w).typeFeatures py.lower

/-- What a merge that succeeds leaves. -/
theorem mergeSchema_ok {uuid : Int → String} {data : List ArrowField}
    (h : mergeSchema py uuid state data = .ok change) :
    ∃ m, mergeFields py state state.schema.fields "" false data = .ok m ∧
      ((m.added = [] ∧ m.widened = [] ∧ change = .nothing) ∨
        ((∀ f ∈ fieldsAt (.struct m.merged) m.added,
            checkNames py (mapped py state.configuration) [] [f] = .ok ()) ∧
          change.protocol = protocolFor state.protocol (mergedFeatures py m) ∧
          change.clustering = none ∧
          ((mapped py state.configuration = false ∧ change.metadata = some { state.metadata with
              schema := .struct m.merged }) ∨
            (mapped py state.configuration = true ∧ ∃ highest,
              maxColumnId py state = .ok highest ∧
              change.metadata = some { state.metadata with
                schema := (assignAt (drawn uuid) m.added (.struct m.merged) (highest + 1)).1
                configuration := state.configuration.set cmMax (py.str
                  ((assignAt (drawn uuid) m.added (.struct m.merged) (highest + 1)).2 -
                    1)) })))) := by
  unfold mergeSchema at h
  obtain ⟨m, hm, h⟩ := Result.bind_eq_ok_iff.mp h
  apply Exists.intro m
  apply And.intro hm
  by_cases hempty : (m.added = [] && m.widened = []) = true
  · left
    rw [if_pos hempty] at h
    simp only [Bool.and_eq_true, decide_eq_true_eq] at hempty
    exact ⟨hempty.1, hempty.2, (Result.pure_eq_ok_iff.mp h).symm⟩
  · right
    simp only [if_neg hempty] at h
    obtain ⟨⟨⟩, hnames, h⟩ := Result.bind_eq_ok_iff.mp h
    refine ⟨Result.forM_eq_ok_iff.mp hnames, ?_⟩
    by_cases hmapped : mapped py state.configuration = true
    · rw [if_pos hmapped] at h
      obtain ⟨highest, hhighest, h⟩ := Result.bind_eq_ok_iff.mp h
      cases h
      exact ⟨rfl, rfl, .inr ⟨hmapped, highest, hhighest, rfl⟩⟩
    · rw [if_neg hmapped] at h
      cases h
      exact ⟨rfl, rfl, .inl ⟨by simpa using hmapped, rfl⟩⟩

theorem dropColumn_ok {column : String} (h : dropColumn py state column = .ok change) :
    mapped py state.configuration = true ∧ ∃ path found,
      splitIdentifier py column = .ok path ∧ find py state.schema.fields path = .ok found ∧
      (path.length = 1 → isPartition py state found.target.name = false) ∧
      (∀ c ∈ clusteringColumns state,
        ¬ c.take (physicalPath py state.schema.fields path).length =
          physicalPath py state.schema.fields path) ∧
      dependents py state found.target.name = [] ∧
      change = ⟨none, some { state.metadata with
        schema := state.schema.update (fun _ => []) found.position }, none⟩ := by
  unfold dropColumn at h
  obtain ⟨⟨⟩, hrequire, h⟩ := Result.bind_eq_ok_iff.mp h
  obtain ⟨path, hpath, h⟩ := Result.bind_eq_ok_iff.mp h
  obtain ⟨found, hfound, h⟩ := Result.bind_eq_ok_iff.mp h
  simp only [Result.guard_eq_ok_iff, Result.pure_eq_ok_iff] at h
  obtain ⟨hpartition, -, -, hclustering, hdependents, rfl⟩ := h
  refine ⟨(requireColumnMapping_ok hrequire).1, path, found, hpath, hfound, ?_, ?_, ?_, rfl⟩
  · simpa using hpartition
  · simpa using hclustering
  · simpa using hdependents

theorem renameColumn_ok {old new : String} (h : renameColumn py state old new = .ok change) :
    mapped py state.configuration = true ∧ ∃ path found parts,
      splitIdentifier py old = .ok path ∧ find py state.schema.fields path = .ok found ∧
      newPath py new = .ok parts ∧ parts.getLastD "" ≠ "" ∧
      (∀ f ∈ found.container.eraseIdx found.index,
        py.lower f.name ≠ py.lower (parts.getLastD "")) ∧
      ((parts.getLastD "" = found.target.name ∧ change = .nothing) ∨
        (py.lower (parts.getLastD "") ≠ py.lower found.target.name ∧
          dependents py state found.target.name = [] ∧
          change = ⟨none, some { state.metadata with
            schema := state.schema.update (fun f => [{ f with name := parts.getLastD "" }])
              found.position
            partitionColumns :=
              if path.length = 1 then
                state.metadata.partitionColumns.map fun p =>
                  if py.lower p = py.lower found.target.name then parts.getLastD "" else p
              else state.metadata.partitionColumns }, none⟩)) := by
  unfold renameColumn at h
  obtain ⟨⟨⟩, hrequire, h⟩ := Result.bind_eq_ok_iff.mp h
  obtain ⟨path, hpath, h⟩ := Result.bind_eq_ok_iff.mp h
  obtain ⟨found, hfound, h⟩ := Result.bind_eq_ok_iff.mp h
  obtain ⟨parts, hparts, h⟩ := Result.bind_eq_ok_iff.mp h
  simp only [Result.guard_eq_ok_iff] at h
  obtain ⟨-, hempty, hexists, -, h⟩ := h
  refine ⟨(requireColumnMapping_ok hrequire).1, path, found, parts, hpath, hfound, hparts, hempty,
    by simpa using hexists, ?_⟩
  by_cases hsame : parts.getLastD "" = found.target.name
  · left
    rw [if_pos hsame] at h
    exact ⟨hsame, (Result.pure_eq_ok_iff.mp h).symm⟩
  · right
    simp only [if_neg hsame, Result.guard_eq_ok_iff, Result.pure_eq_ok_iff] at h
    exact ⟨h.1, by simpa using h.2.1, h.2.2.symm⟩

theorem alterColumnType_ok {column new : String}
    (h : alterColumnType py state column new = .ok change) :
    change = .nothing ∨ ∃ path found old,
      splitIdentifier py column = .ok path ∧ find py state.schema.fields path = .ok found ∧
      found.target.type = .primitive old ∧
      wideningAllowed py old (normaliseType py new) = true ∧
      change = ⟨withFeatures state.protocol
          ("typeWidening" :: (DataType.primitive (normaliseType py new)).typeFeatures py.lower),
        some { state.metadata with
          schema := state.schema.update (fun f => [{ f with
            type := .primitive (normaliseType py new)
            metadata := f.recordChange old (normaliseType py new) }]) found.position },
        none⟩ := by
  unfold alterColumnType at h
  obtain ⟨path, hpath, h⟩ := Result.bind_eq_ok_iff.mp h
  obtain ⟨found, hfound, h⟩ := Result.bind_eq_ok_iff.mp h
  by_cases hsame : found.target.type = .primitive (normaliseType py new)
  · left
    rw [if_pos hsame] at h
    exact (Result.pure_eq_ok_iff.mp h).symm
  · right
    simp only [if_neg hsame, Result.guard_eq_ok_iff] at h
    obtain ⟨-, h⟩ := h
    split at h
    · rename_i old htype
      simp only [Result.guard_eq_ok_iff, Result.pure_eq_ok_iff] at h
      obtain ⟨hallowed, -, -, rfl⟩ := h
      exact ⟨path, found, old, hpath, hfound, htype, by simpa using hallowed, rfl⟩
    · cases h

theorem setProperties_ok {properties : List (String × RawValue)}
    (h : setProperties py state properties = .ok change) :
    ∃ s, properties.foldlM (setProperty py state) ⟨state.configuration, [], none⟩ = .ok s ∧
      checkClusteringStats py state s.configuration = .ok () ∧
      change = ⟨protocolFor state.protocol s.features, ifChanged state { state.metadata with
        schema := s.schema.getD state.schema
        configuration := s.configuration }, none⟩ := by
  unfold setProperties at h
  obtain ⟨s, hs, h⟩ := Result.bind_eq_ok_iff.mp h
  obtain ⟨⟨⟩, hstats, h⟩ := Result.bind_eq_ok_iff.mp h
  exact ⟨s, hs, hstats, (Result.pure_eq_ok_iff.mp h).symm⟩

theorem unsetProperties_ok {keys : List String} {ifExists : Bool}
    (h : unsetProperties py state keys ifExists = .ok change) :
    ∃ r, unsetKeys py ifExists state.configuration [] keys = .ok r ∧
      ((r.2 = [] ∧ change = .nothing) ∨
        (checkClusteringStats py state r.1 = .ok () ∧
          change = ⟨none, some { state.metadata with configuration := r.1 }, none⟩)) := by
  unfold unsetProperties at h
  obtain ⟨r, hr, h⟩ := Result.bind_eq_ok_iff.mp h
  apply Exists.intro r
  apply And.intro hr
  by_cases hempty : r.2 = []
  · rw [if_pos hempty] at h
    exact .inl ⟨hempty, (Result.pure_eq_ok_iff.mp h).symm⟩
  · rw [if_neg hempty] at h
    obtain ⟨⟨⟩, hstats, h⟩ := Result.bind_eq_ok_iff.mp h
    exact .inr ⟨hstats, (Result.pure_eq_ok_iff.mp h).symm⟩

theorem clusterBy_ok {columns : List String} (h : clusterBy py state columns = .ok change) :
    state.metadata.partitionColumns = [] ∧ ∃ physical,
      clusterKeys py state [] columns = .ok physical ∧
      (change = .nothing ∨ change = ⟨withFeatures state.protocol ["clustering", "domainMetadata"],
        none, some physical⟩) := by
  unfold clusterBy at h
  simp only [Result.guard_eq_ok_iff] at h
  obtain ⟨hpartitions, -, h⟩ := h
  obtain ⟨physical, hphysical, h⟩ := Result.bind_eq_ok_iff.mp h
  refine ⟨by simpa using hpartitions, physical, hphysical, ?_⟩
  split_ifs at h
  · exact .inl (Result.pure_eq_ok_iff.mp h).symm
  · exact .inl (Result.pure_eq_ok_iff.mp h).symm
  · exact .inr (Result.pure_eq_ok_iff.mp h).symm

theorem addConstraints_ok {constraints : List (String × String)}
    (h : addConstraints py state constraints = .ok change) :
    change = .nothing ∨ ∃ added,
      newConstraints py (state.configuration.map fun e => py.lower e.1) [] constraints =
        .ok added ∧
      change = ⟨if 7 ≤ state.protocol.minWriterVersion then
          withFeatures state.protocol ["checkConstraints"]
        else if state.protocol.minWriterVersion < 3 then
          some { state.protocol with minWriterVersion := 3 }
        else none,
        some { state.metadata with
          configuration := added.foldl (fun config e => config.set e.1 e.2) state.configuration },
        none⟩ := by
  unfold addConstraints at h
  obtain ⟨added, hadded, h⟩ := Result.bind_eq_ok_iff.mp h
  by_cases hempty : added = []
  · left
    rw [if_pos hempty] at h
    exact (Result.pure_eq_ok_iff.mp h).symm
  · right
    rw [if_neg hempty] at h
    exact ⟨added, hadded, (Result.pure_eq_ok_iff.mp h).symm⟩

theorem initialActions_ok {draws : Draws} {table : NewTable}
    (h : initialActions py draws table = .ok state) :
    ∃ fields config, checkNames py (mapped py config) [] fields = .ok () ∧
      state.schema = .struct (if mapped py config then (assignIds (drawn draws.column) fields 1).1
        else fields) ∧
      state.configuration = if mapped py config then
        config.set cmMax (py.str ((assignIds (drawn draws.column) fields 1).2 - 1))
      else config := by
  unfold initialActions at h
  simp only [Result.guard_eq_ok_iff] at h
  obtain ⟨-, h⟩ := h
  obtain ⟨valid, -, h⟩ := Result.bind_eq_ok_iff.mp h
  split at h
  · rename_i fields
    obtain ⟨_, hfields, h⟩ := Result.bind_eq_ok_iff.mp h
    cases hfields
    obtain ⟨⟨config₀, signals⟩, -, h⟩ := Result.bind_eq_ok_iff.mp h
    simp only [Result.guard_eq_ok_iff] at h
    obtain ⟨-, -, h⟩ := h
    obtain ⟨⟨config, features⟩, -, h⟩ := Result.bind_eq_ok_iff.mp h
    obtain ⟨⟨⟩, hnames, h⟩ := Result.bind_eq_ok_iff.mp h
    obtain ⟨partitions, -, h⟩ := Result.bind_eq_ok_iff.mp h
    simp only [Result.guard_eq_ok_iff] at h
    obtain ⟨-, -, h⟩ := h
    refine ⟨fields, config, hnames, ?_⟩
    by_cases hclustered : table.clusterBy = []
    · rw [if_pos hclustered] at h
      obtain ⟨clustered, -, h⟩ := Result.bind_eq_ok_iff.mp h
      rw [Result.pure_eq_ok_iff] at h
      subst h
      exact ⟨rfl, rfl⟩
    · rw [if_neg hclustered] at h
      obtain ⟨clustered, -, h⟩ := Result.bind_eq_ok_iff.mp h
      rw [Result.pure_eq_ok_iff] at h
      subst h
      exact ⟨rfl, rfl⟩
  · obtain ⟨_, hfields, -⟩ := Result.bind_eq_ok_iff.mp h
    cases hfields

end

end DeltaSwamp.Metadata
