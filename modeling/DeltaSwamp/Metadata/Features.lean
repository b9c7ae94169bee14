import DeltaSwamp.Metadata.Schema
import DeltaSwamp.Worklist

/-!
# Protocols and table features

`capability.py`'s feature matrix as far as the protocol of a metadata change
reads it, and `supported_features` and `with_features` of `engine/metadata.py`.
-/

namespace DeltaSwamp.Metadata

open List

inductive TableFeature where
  | appendOnly | invariants | checkConstraints | changeDataFeed | generatedColumns
  | identityColumns | inCommitTimestamp | rowTracking | domainMetadata | icebergCompatV1
  | icebergCompatV2 | icebergCompatV3 | icebergWriterCompatV1 | icebergWriterCompatV3 | clustering
  | materializePartitionColumns | allowColumnDefaults | catalogManaged | catalogOwnedPreview
  | columnMapping | deletionVectors | timestampNtz | typeWidening | typeWideningPreview
  | v2Checkpoint | vacuumProtocolCheck | variantType | variantTypePreview | variantShredding
  | variantShreddingPreview | adaptiveMetadataPreview | geospatial | collations | collationsPreview
  | checkpointProtection | timestampNanos
  deriving DecidableEq

namespace TableFeature

def all : List TableFeature :=
  [appendOnly, invariants, checkConstraints, changeDataFeed, generatedColumns, identityColumns,
    inCommitTimestamp, rowTracking, domainMetadata, icebergCompatV1, icebergCompatV2,
    icebergCompatV3, icebergWriterCompatV1, icebergWriterCompatV3, clustering,
    materializePartitionColumns, allowColumnDefaults, catalogManaged, catalogOwnedPreview,
    columnMapping, deletionVectors, timestampNtz, typeWidening, typeWideningPreview, v2Checkpoint,
    vacuumProtocolCheck, variantType, variantTypePreview, variantShredding,
    variantShreddingPreview, adaptiveMetadataPreview, geospatial, collations, collationsPreview,
    checkpointProtection, timestampNanos]

/-- The name on the wire. -/
def value : TableFeature → String
  | appendOnly => "appendOnly"
  | invariants => "invariants"
  | checkConstraints => "checkConstraints"
  | changeDataFeed => "changeDataFeed"
  | generatedColumns => "generatedColumns"
  | identityColumns => "identityColumns"
  | inCommitTimestamp => "inCommitTimestamp"
  | rowTracking => "rowTracking"
  | domainMetadata => "domainMetadata"
  | icebergCompatV1 => "icebergCompatV1"
  | icebergCompatV2 => "icebergCompatV2"
  | icebergCompatV3 => "icebergCompatV3"
  | icebergWriterCompatV1 => "icebergWriterCompatV1"
  | icebergWriterCompatV3 => "icebergWriterCompatV3"
  | clustering => "clustering"
  | materializePartitionColumns => "materializePartitionColumns"
  | allowColumnDefaults => "allowColumnDefaults"
  | catalogManaged => "catalogManaged"
  | catalogOwnedPreview => "catalogOwned-preview"
  | columnMapping => "columnMapping"
  | deletionVectors => "deletionVectors"
  | timestampNtz => "timestampNtz"
  | typeWidening => "typeWidening"
  | typeWideningPreview => "typeWidening-preview"
  | v2Checkpoint => "v2Checkpoint"
  | vacuumProtocolCheck => "vacuumProtocolCheck"
  | variantType => "variantType"
  | variantTypePreview => "variantType-preview"
  | variantShredding => "variantShredding"
  | variantShreddingPreview => "variantShredding-preview"
  | adaptiveMetadataPreview => "adaptiveMetadata-preview"
  | geospatial => "geospatial"
  | collations => "collations"
  | collationsPreview => "collations-preview"
  | checkpointProtection => "checkpointProtection"
  | timestampNanos => "timestampNanos"

/-- Whether readers must know the feature too. -/
def readerWriter : TableFeature → Bool
  | catalogManaged | catalogOwnedPreview | columnMapping | deletionVectors | timestampNtz
  | typeWidening | typeWideningPreview | v2Checkpoint | vacuumProtocolCheck | variantType
  | variantTypePreview | variantShredding | variantShreddingPreview | adaptiveMetadataPreview
  | geospatial | timestampNanos => true
  | _ => false

/-- `FEATURE_DEPENDENCIES`. -/
def dependencies : TableFeature → List TableFeature
  | rowTracking => [domainMetadata]
  | clustering => [domainMetadata]
  | catalogManaged => [inCommitTimestamp]
  | catalogOwnedPreview => [inCommitTimestamp]
  | variantShredding => [variantType]
  | icebergCompatV1 => [columnMapping]
  | icebergCompatV2 => [columnMapping]
  | icebergCompatV3 => [columnMapping, rowTracking]
  | adaptiveMetadataPreview =>
    [columnMapping, rowTracking, domainMetadata, deletionVectors, inCommitTimestamp]
  | _ => []

theorem mem_all (f : TableFeature) : f ∈ all := by cases f <;> decide

/-- `feature_from_wire`. -/
def fromWire (name : String) : Option TableFeature :=
  match all.find? fun f => f.value = name with
  | some f => some f
  | none => if name = "timestampWithoutTimezone" then some timestampNtz else none

end TableFeature

structure Protocol where
  minReaderVersion : Nat
  minWriterVersion : Nat
  readerFeatures : Option (List String)
  writerFeatures : Option (List String)
  deriving DecidableEq

/-- `_LEGACY_WRITER`. -/
def legacyWriter : Nat → List String
  | 2 => ["appendOnly", "invariants"]
  | 3 => ["appendOnly", "invariants", "checkConstraints"]
  | 4 => ["appendOnly", "invariants", "checkConstraints", "changeDataFeed", "generatedColumns"]
  | 5 => ["appendOnly", "invariants", "checkConstraints", "changeDataFeed", "generatedColumns",
      "columnMapping"]
  | 6 => ["appendOnly", "invariants", "checkConstraints", "changeDataFeed", "generatedColumns",
      "columnMapping", "identityColumns"]
  | _ => []

/-- `_LEGACY_READER`. -/
def legacyReader : Nat → List String
  | 2 => ["columnMapping"]
  | _ => []

/-- `_PREVIEW_OF`: the preview name that provides the same capability. -/
def previewOf : String → Option String
  | "typeWidening" => some "typeWidening-preview"
  | "variantType" => some "variantType-preview"
  | "variantShredding" => some "variantShredding-preview"
  | "collations" => some "collations-preview"
  | _ => none

/-- Every feature the protocol supports, explicit or implied by version. -/
def supportedFeatures (protocol : Protocol) : List String :=
  if 7 ≤ protocol.minWriterVersion then protocol.writerFeatures.getD []
  else legacyWriter protocol.minWriterVersion

/-- A feature's dependencies, by their names. -/
def dependencyGraph : Worklist.Graph String where
  next name := (TableFeature.fromWire name).elim [] fun f => f.dependencies.map TableFeature.value
  nodes := TableFeature.all.map TableFeature.value
  next_mem := by
    intro name b hb
    cases hf : TableFeature.fromWire name with
    | none => simp [hf] at hb
    | some f =>
      rw [hf, Option.elim_some] at hb
      obtain ⟨d, -, rfl⟩ := mem_map.mp hb
      exact mem_map.mpr ⟨d, d.mem_all, rfl⟩

/-- The names, with their dependencies. -/
def withDependencies (names : List String) : List String :=
  Worklist.close dependencyGraph [] names

def needsReader (name : String) : Bool := (TableFeature.fromWire name).any TableFeature.readerWriter

/-- Whether `have` has the preview variant of a feature. -/
def hasPreview (have' : List String) (name : String) : Bool :=
  (previewOf name).any fun preview => preview ∈ have'

def sortedNames (names : List String) : List String :=
  names.dedup.insertionSort (· ≤ ·)

/-- The protocol extended to support `names`, or none if it already does. -/
def withFeatures (protocol : Protocol) (names : List String) : Option Protocol :=
  let have' := supportedFeatures protocol
  let wanted := (withDependencies names).filter fun n => !hasPreview have' n
  if ∀ n ∈ wanted, n ∈ have' then none
  else
    let writerFeatures := have' ++ wanted
    let readers := writerFeatures.filter needsReader
    let newReaders := wanted.filter needsReader
    let reader := protocol.minReaderVersion
    some <|
      if 3 ≤ reader then ⟨reader, 7,
        some (sortedNames (protocol.readerFeatures.getD [] ++ readers)),
        some (sortedNames writerFeatures)⟩
      else if newReaders.any fun n => n ∉ legacyReader reader then
        ⟨3, 7, some (sortedNames readers), some (sortedNames writerFeatures)⟩
      else ⟨reader, 7, none, some (sortedNames writerFeatures)⟩

section
variable (lower : String → String)

/-- `_TYPE_FEATURES`. -/
def typeFeature : String → Option String
  | "timestamp_ntz" => some "timestampNtz"
  | "variant" => some "variantType"
  | _ => none

mutual

/-- Table features a column of this type needs, anywhere inside it. -/
def DataType.typeFeatures : DataType → List String
  | .primitive name => (typeFeature (lower name)).toList
  | .struct fields => typeFeaturesOf fields
  | .array e _ => e.typeFeatures
  | .map k v _ => k.typeFeatures ++ v.typeFeatures

def typeFeaturesOf : List Field → List String
  | [] => []
  | ⟨_, t, _, _⟩ :: fs => t.typeFeatures ++ typeFeaturesOf fs

end

end

/-- `_COLUMN_FEATURES`: a metadata key, or a prefix of keys, and its feature. -/
def columnMarkers : List (String × Bool × String) :=
  [("delta.generationExpression", false, "generatedColumns"),
    ("delta.identity.", true, "identityColumns"),
    ("CURRENT_DEFAULT", false, "allowColumnDefaults"),
    ("delta.invariants", false, "invariants")]

def startsWith (text start : String) : Bool := start.toList.isPrefixOf text.toList

/-- The features one metadata key declares. -/
def keyFeatures (key : String) : List String :=
  (columnMarkers.filter fun m => if m.2.1 then startsWith key m.1 else key = m.1).map (·.2.2)

/-- Writer features one field's metadata declares. -/
def FieldOf.features {α : Type} (f : FieldOf α) : List String :=
  f.metadata.flatMap fun m => keyFeatures m.1

/-- Writer features the column metadata of a schema declares. -/
def columnFeatures (schema : DataType) : List String :=
  schema.walk.flatMap FieldOf.features

/-- Legacy versions, or writer 7 with explicit features and reader features exactly where the
reader version is 3. -/
def WellFormed (p : Protocol) : Prop :=
  (p.minReaderVersion < 3 ∧ p.minWriterVersion < 7 ∧ p.readerFeatures = none ∧
      p.writerFeatures = none) ∨
    (p.minReaderVersion ≤ 3 ∧ p.minWriterVersion = 7 ∧ p.writerFeatures.isSome = true ∧
      (p.readerFeatures.isSome = true ↔ p.minReaderVersion = 3))

instance (p : Protocol) : Decidable (WellFormed p) := by
  unfold WellFormed
  infer_instance

/-- Whether a feature is supported, under its stable or its preview name. -/
def supports (p : Protocol) (name : String) : Prop :=
  name ∈ supportedFeatures p ∨ hasPreview (supportedFeatures p) name = true

instance (p : Protocol) (name : String) : Decidable (supports p name) := by
  unfold supports
  infer_instance

variable {names : List String}

theorem mem_sortedNames {x : String} : x ∈ sortedNames names ↔ x ∈ names := by
  rw [sortedNames, mem_insertionSort, mem_dedup]

theorem hasPreview_mono {have' have'' : List String} (h : have' ⊆ have'') {name : String}
    (hp : hasPreview have' name = true) : hasPreview have'' name = true := by
  unfold hasPreview at hp ⊢
  obtain ⟨preview, hpreview, hmem⟩ := (Option.any_eq_true _ _).mp hp
  exact (Option.any_eq_true _ _).mpr ⟨preview, hpreview, by simpa using h (by simpa using hmem)⟩

variable {p p' : Protocol}

theorem supports_mono (h : supportedFeatures p ⊆ supportedFeatures p') {name : String}
    (hname : supports p name) : supports p' name :=
  hname.imp (fun hmem => h hmem) (hasPreview_mono h)

theorem names_subset_withDependencies (names : List String) : names ⊆ withDependencies names :=
  Worklist.pending_subset_close _ _ _

theorem next_mem_withDependencies {f d : String} (hf : f ∈ withDependencies names)
    (hd : d ∈ dependencyGraph.next f) : d ∈ withDependencies names :=
  Worklist.next_subset_close _ (by simp) hf hd

/-- What extending `p` for `names` comes to. -/
structure Extended (p p' : Protocol) (names : List String) : Prop where
  wellFormed : WellFormed p'
  kept : supportedFeatures p ⊆ supportedFeatures p'
  supported : ∀ f ∈ withDependencies names, supports p' f
  added : ∀ f ∈ supportedFeatures p', f ∉ supportedFeatures p → f ∈ withDependencies names

theorem Extended.dependencies (h : Extended p p' names) {f : String} (hf : f ∈ supportedFeatures p')
    (hnew : f ∉ supportedFeatures p) : ∀ d ∈ dependencyGraph.next f, supports p' d :=
  fun d hd => h.supported d (next_mem_withDependencies (h.added f hf hnew) hd)

theorem extended_self (hp : WellFormed p) (h : ∀ f ∈ withDependencies names, supports p f) :
    Extended p p names :=
  ⟨hp, List.Subset.refl _, h, fun _ hf hnew => absurd hf hnew⟩

/-- The features `with_features` has still to add. -/
def wantedFeatures (p : Protocol) (names : List String) : List String :=
  (withDependencies names).filter fun n => !hasPreview (supportedFeatures p) n

theorem withFeatures_none :
    withFeatures p names = none ↔ ∀ n ∈ wantedFeatures p names, n ∈ supportedFeatures p := by
  unfold withFeatures wantedFeatures
  simp only
  split_ifs with hall
  · exact iff_of_true rfl hall
  · exact iff_of_false id hall

theorem supported_of_wanted {have' : List String} (hkept : supportedFeatures p ⊆ have')
    (hwanted : ∀ n ∈ wantedFeatures p names, n ∈ have') :
    ∀ f ∈ withDependencies names, f ∈ have' ∨ hasPreview have' f = true := by
  intro f hf
  cases hpreview : hasPreview (supportedFeatures p) f with
  | true => exact .inr (hasPreview_mono hkept hpreview)
  | false => exact .inl (hwanted f (mem_filter.mpr ⟨hf, by simp [hpreview]⟩))

/-- The features it had, and those wanted. -/
theorem withFeatures_some (hp : WellFormed p) (h : withFeatures p names = some p') :
    WellFormed p' ∧ supportedFeatures p' =
      sortedNames (supportedFeatures p ++ wantedFeatures p names) := by
  have hreader : p.minReaderVersion ≤ 3 := by
    rcases hp with hp | hp
    · omega
    · exact hp.1
  unfold withFeatures at h
  simp only at h
  split_ifs at h with hall hthree hnew
  · rw [Option.some.injEq] at h
    subst h
    refine ⟨.inr ⟨hreader, rfl, rfl, ?_⟩, rfl⟩
    simp only [Option.isSome_some, true_iff]
    omega
  · rw [Option.some.injEq] at h
    subst h
    exact ⟨.inr ⟨le_refl 3, rfl, rfl, by simp⟩, rfl⟩
  · rw [Option.some.injEq] at h
    subst h
    refine ⟨.inr ⟨hreader, rfl, rfl, ?_⟩, rfl⟩
    simp only [Option.isSome_none, Bool.false_eq_true, false_iff]
    omega

theorem withFeatures_extended (hp : WellFormed p) (names : List String) :
    Extended p ((withFeatures p names).getD p) names := by
  cases h : withFeatures p names with
  | none =>
    rw [Option.getD_none]
    exact extended_self hp (supported_of_wanted (List.Subset.refl _) (withFeatures_none.mp h))
  | some p' =>
    obtain ⟨hwell, hfeatures⟩ := withFeatures_some hp h
    have hkept : supportedFeatures p ⊆ supportedFeatures p' := by
      intro f hf
      rw [hfeatures, mem_sortedNames]
      exact mem_append_left _ hf
    have hwanted : ∀ n ∈ wantedFeatures p names, n ∈ supportedFeatures p' := by
      intro n hn
      rw [hfeatures, mem_sortedNames]
      exact mem_append_right _ hn
    refine ⟨hwell, hkept, supported_of_wanted hkept hwanted, ?_⟩
    intro f hf hnew
    rw [Option.getD_some, hfeatures, mem_sortedNames] at hf
    rcases mem_append.mp hf with hf | hf
    · exact absurd hf hnew
    · exact (mem_filter.mp hf).1

theorem withFeatures_idem (hp : WellFormed p) (h : withFeatures p names = some p') :
    withFeatures p' names = none := by
  have hext := withFeatures_extended hp names
  rw [h, Option.getD_some] at hext
  rw [withFeatures_none]
  intro n hn
  obtain ⟨hn, hpreview⟩ := mem_filter.mp hn
  rcases hext.supported n hn with hmem | hmem
  · exact hmem
  · rw [hmem] at hpreview
    cases hpreview

end DeltaSwamp.Metadata
