import DeltaSwamp.Metadata.Reread
import Mathlib.Data.List.Find

/-!
# What `set_properties` leaves

The values and keys it stores, and what setting a stored value again does.
-/

namespace DeltaSwamp.Metadata

open List

section
variable {py : Python} {state : TableState} {key v : String} {raw : RawValue}

/-- What the values given to a key must be like for the one stored to stay. -/
structure Legible (py : Python) (key : String) (raw : RawValue) : Prop where
  size : key = "delta.targetFileSize" → PlainSize py (strip py (raw.given py))
  interval : key ∈ durationKeys → ∀ number unit,
    intervalOf py (strip py (raw.given py)).toList = some (number, unit) →
      (key ∈ intervalKeys → ∀ c ∈ unit.toList, c ∉ oddLetters) ∧ 'İ' ∉ unit.toList
  mode : key = cmMode → py.lower (strip py (raw.given py)) ∈ modes
  tracking : key = rowTrackingKey → ¬ onlyTrimmedTrue py raw

theorem legible_of_plain (hsize : key ≠ "delta.targetFileSize") (hduration : key ∉ durationKeys)
    (hmode : key ≠ cmMode) (htracking : key ≠ rowTrackingKey) : Legible py key raw where
  size h := absurd h hsize
  interval h := absurd h hduration
  mode h := absurd h hmode
  tracking h := absurd h htracking

variable {schema : DataType}

theorem normaliseValue_ne_none (h : normaliseValue py key raw schema = .ok v) : raw ≠ .none := by
  rintro rfl
  cases h

theorem intervalOf_unit {text : List Char} {number : Nat} {unit : String}
    (h : intervalOf py text = some (number, unit)) : intervalUnit py unit.toList = true := by
  unfold intervalOf at h
  simp only [Option.bind_eq_bind, Option.bind_eq_some_iff] at h
  obtain ⟨⟨n, rest⟩, -, h⟩ := h
  split_ifs at h with hunit
  cases h
  rwa [String.toList_ofList]

theorem lookup_plain {least : Int} (h : integerKeys.lookup key = some least) :
    key ≠ "delta.targetFileSize" ∧ key ∉ durationKeys ∧ key ≠ cmMode ∧ key ≠ rowTrackingKey := by
  obtain ⟨rfl, -⟩ | ⟨rfl, -⟩ | ⟨rfl, -⟩ := integerKeys_cases h
  · decide
  · decide
  · decide

theorem booleanKeys_plain : ∀ key ∈ booleanKeys,
    key ≠ "delta.targetFileSize" ∧ key ∉ durationKeys ∧ key ≠ cmMode := by
  decide

theorem durationKeys_rest : ∀ key ∈ durationKeys,
    key ≠ "delta.targetFileSize" ∧ key ≠ cmMode ∧ key ≠ rowTrackingKey := by
  decide

/-- A stored value stays exactly when what was given for it is legible; row tracking apart. -/
theorem reread_iff (hpy : py.Lawful) (hkey : key ∈ settableKeys)
    (h : normaliseValue py key raw schema = .ok v) (htracking : key ≠ rowTrackingKey) :
    Reread py schema key v ↔ Legible py key raw := by
  have hgiven := h
  rw [normaliseValue_given (normaliseValue_ne_none h)] at hgiven
  obtain hboolean | ⟨hboolean, hsome⟩ | ⟨hboolean, hnone, hduration⟩ | rfl | hword | rfl | rfl :=
    settableKeys_classes key hkey
  · obtain ⟨hsize, hduration, hmode⟩ := booleanKeys_plain key hboolean
    exact iff_of_true (reread_boolean hpy hboolean (normaliseValue_boolean hboolean h).2)
      (legible_of_plain hsize hduration hmode htracking)
  · obtain ⟨least, hleast⟩ := Option.isSome_iff_exists.mp hsome
    obtain ⟨hsize, hduration, hmode, -⟩ := lookup_plain hleast
    exact iff_of_true (reread_integer hpy hboolean hleast hgiven)
      (legible_of_plain hsize hduration hmode htracking)
  · obtain ⟨hsize, hmode, -⟩ := durationKeys_rest key hduration
    rw [normaliseValue_duration hduration] at hgiven
    cases hinterval : intervalOf py (strip py (raw.given py)).toList with
    | none => rw [hinterval] at hgiven; cases hgiven
    | some r =>
      obtain ⟨number, unit⟩ := r
      rw [hinterval] at hgiven
      cases hgiven
      rw [reread_duration hpy hduration (intervalOf_unit hinterval)]
      constructor
      · intro hunit
        refine ⟨fun h => absurd h hsize, ?_, fun h => absurd h hmode,
          fun h => absurd h htracking⟩
        intro _ number' unit' heq
        rw [hinterval] at heq
        cases heq
        exact hunit
      · intro hlegible
        exact hlegible.interval hduration number unit hinterval
  · rw [normaliseValue_size] at hgiven
    split_ifs at hgiven with hsize
    cases hgiven
    rw [reread_size hpy hsize (strip_strip py _)]
    constructor
    · intro hplain
      exact ⟨fun _ => hplain, fun h => absurd h (by decide), fun h => absurd h (by decide),
        fun h => absurd h (by decide)⟩
    · exact fun hlegible => hlegible.size rfl
  · have hplain : key ≠ "delta.targetFileSize" ∧ key ∉ durationKeys ∧ key ≠ cmMode :=
      (by decide : ∀ key ∈ wordKeys, key ≠ "delta.targetFileSize" ∧ key ∉ durationKeys ∧
        key ≠ cmMode) key hword
    refine iff_of_true ?_ (legible_of_plain hplain.1 hplain.2.1 hplain.2.2 htracking)
    simp only [wordKeys, mem_cons, not_mem_nil, or_false] at hword
    obtain rfl | rfl | rfl := hword
    · exact reread_isolation hpy hgiven
    · exact reread_codec hpy hgiven
    · exact reread_policy hpy hgiven
  · rw [reread_mode hpy hgiven]
    constructor
    · intro hmem
      exact ⟨fun h => absurd h (by decide), fun h => absurd h (by decide), fun _ => hmem,
        fun h => absurd h (by decide)⟩
    · exact fun hlegible => hlegible.mode rfl
  · exact iff_of_true (reread_stats hgiven)
      (legible_of_plain (by decide) (by decide) (by decide) htracking)

/-- The checks of a key and the value given for it, before that is normalised. -/
structure Allowed (py : Python) (key : String) (raw : RawValue) : Prop where
  tracking : ¬ (key = "delta.enableRowTracking" && py.lower raw.str = "true") = true
  iceberg : ¬ (startsWith (py.lower key) "delta.enableicebergcompat" ||
    startsWith (py.lower key) "delta.universalformat") = true
  known : ¬ (startsWith key "delta." && key ∉ knownKeys && key ≠ "delta.enableRowTracking") = true

/-- Whether the value turns on a change feed whose columns the schema has. -/
def clashes (py : Python) (schema : DataType) (key value : String) : Bool :=
  key = "delta.enableChangeDataFeed" && py.lower value = "true" &&
    schema.fields.any fun f => py.lower f.name ∈ cdfReserved

/-- The features a value needs. -/
def newFeatures (py : Python) (key value : String) : List String :=
  (if py.lower value = "true" then (enabling.lookup key).toList else []) ++
    ((if key = "delta.checkpointPolicy" && py.lower value = "v2" then ["v2Checkpoint"] else []) ++
      if key = cmMode && py.lower value ≠ "none" then ["columnMapping"] else [])

/-- The configuration with the value set. -/
def newConfig (py : Python) (state : TableState) (key value : String) (config : Config) : Config :=
  (if key = inCommit && py.lower value = "true" &&
      py.lower ((state.configuration.get key).getD "false") ≠ "true" then
    (config.set enablementVersion (py.str (state.version + 1))).set enablementTimestamp unresolved
  else config).set key value

/-- What `_enable_column_mapping` makes of the schema and the configuration, where it is called. -/
def mappingOf (py : Python) (state : TableState) (key value : String) (s : Settings) :
    Except Refused (Option DataType × Config) :=
  if key = cmMode then enableColumnMapping py state (py.lower value) s.configuration
  else .ok (s.schema, s.configuration)

variable {s' : Settings}

theorem setValue_iff {s : Settings} :
    setValue py state key raw s = .ok s' ↔ Allowed py key raw ∧ ∃ value mapping,
      normaliseValue py key raw state.schema = .ok value ∧
      clashes py state.schema key value = false ∧ mappingOf py state key value s = .ok mapping ∧
      s' = ⟨newConfig py state key value mapping.2, s.features ++ newFeatures py key value,
        mapping.1⟩ := by
  unfold setValue
  simp only [Result.guard_eq_ok_iff]
  constructor
  · rintro ⟨htracking, hiceberg, hknown, h⟩
    apply And.intro ⟨htracking, hiceberg, hknown⟩
    obtain ⟨value, hvalue, h⟩ := Result.bind_eq_ok_iff.mp h
    rw [Result.guard_eq_ok_iff] at h
    obtain ⟨hclash, h⟩ := h
    have hclashes : clashes py state.schema key value = false := by
      simpa only [clashes, Bool.not_eq_true] using hclash
    unfold mappingOf
    by_cases hkey : key = cmMode
    · rw [if_pos hkey] at h
      obtain ⟨mapping, hmapping, h⟩ := Result.bind_eq_ok_iff.mp h
      refine ⟨value, mapping, hvalue, hclashes, by rwa [if_pos hkey], ?_⟩
      rw [← Result.pure_eq_ok_iff.mp h]
      simp only [newFeatures, append_assoc]
      rfl
    · rw [if_neg hkey] at h
      obtain ⟨mapping, hmapping, h⟩ := Result.bind_eq_ok_iff.mp h
      refine ⟨value, mapping, hvalue, hclashes, by rwa [if_neg hkey], ?_⟩
      rw [← Result.pure_eq_ok_iff.mp h]
      simp only [newFeatures, append_assoc]
      rfl
  · rintro ⟨hallowed, value, mapping, hvalue, hclash, hmapping, rfl⟩
    refine ⟨hallowed.tracking, hallowed.iceberg, hallowed.known, ?_⟩
    rw [Result.bind_eq_ok_iff]
    refine ⟨value, hvalue, ?_⟩
    rw [Result.guard_eq_ok_iff]
    refine ⟨by simpa only [clashes, Bool.not_eq_true] using hclash, ?_⟩
    unfold mappingOf at hmapping
    by_cases hkey : key = cmMode
    · rw [if_pos hkey] at hmapping ⊢
      refine Result.bind_eq_ok_iff.mpr ⟨mapping, hmapping, ?_⟩
      rw [Result.pure_eq_ok_iff]
      simp only [newFeatures, append_assoc]
      rfl
    · rw [if_neg hkey] at hmapping ⊢
      refine Result.bind_eq_ok_iff.mpr ⟨mapping, hmapping, ?_⟩
      rw [Result.pure_eq_ok_iff]
      simp only [newFeatures, append_assoc]
      rfl

variable {names names' : List String}

theorem withDependencies_mono (h : names' ⊆ names) :
    withDependencies names' ⊆ withDependencies names := by
  apply Worklist.close_subset
  · exact nil_subset _
  · exact fun n hn => names_subset_withDependencies names (h hn)
  · exact fun a ha b hb => next_mem_withDependencies ha hb

theorem wantedFeatures_kept {p p' : Protocol} (h : names' ⊆ names)
    (hp : supportedFeatures p ⊆ supportedFeatures p')
    (hwanted : ∀ n ∈ wantedFeatures p names, n ∈ supportedFeatures p') :
    withFeatures p' names' = none := by
  rw [withFeatures_none]
  intro n hn
  obtain ⟨hn, hpreview⟩ := mem_filter.mp hn
  obtain hmem | hmem := supported_of_wanted hp hwanted n (withDependencies_mono h hn)
  · exact hmem
  · rw [hmem] at hpreview
    cases hpreview

theorem protocolFor_again (p : Protocol) (h : names' ⊆ names) :
    protocolFor ((protocolFor p names).getD p) names' = none := by
  unfold protocolFor
  by_cases hempty' : names' = []
  · rw [if_pos hempty']
  · have hempty : names ≠ [] := fun hnil => hempty' (subset_nil.mp (hnil ▸ h))
    rw [if_neg hempty', if_neg hempty]
    cases hwith : withFeatures p names with
    | none =>
      exact wantedFeatures_kept h (List.Subset.refl _) (withFeatures_none.mp hwith)
    | some p' =>
      have hfeatures : supportedFeatures p' =
          sortedNames (supportedFeatures p ++ wantedFeatures p names) := by
        unfold withFeatures at hwith
        simp only at hwith
        split_ifs at hwith
        all_goals
          cases hwith
          rfl
      rw [Option.getD_some]
      apply wantedFeatures_kept h
      · intro n hn
        rw [hfeatures, mem_sortedNames]
        exact mem_append_left _ hn
      · intro n hn
        rw [hfeatures, mem_sortedNames]
        exact mem_append_right _ hn

theorem canonicalKeys_ascii : ∀ k ∈ canonicalKeys, ∀ c ∈ k.toList, c.toNat < 128 := by
  decide +kernel

/-- The keys `set_properties` writes beside those it is given. -/
def besideKeys : List String := [cmMax, enablementVersion, enablementTimestamp]

theorem besideKeys_find : ∀ key ∈ besideKeys, (canonicalKeys.find? fun k =>
    String.ofList (k.toList.map Char.toLower) = String.ofList (key.toList.map Char.toLower)) =
      some key := by
  decide +kernel

theorem canonicalKey_beside (hpy : py.Lawful) (hkey : key ∈ besideKeys) :
    canonicalKey py key = key := by
  have hmem : key ∈ canonicalKeys := (by decide : ∀ key ∈ besideKeys, key ∈ canonicalKeys) key hkey
  have hlower : ∀ k ∈ canonicalKeys, py.lower k = String.ofList (k.toList.map Char.toLower) :=
    fun k hk => lower_of_ascii hpy (canonicalKeys_ascii k hk)
  have hfind : (canonicalKeys.find? fun k => py.lower k = py.lower key) = some key := by
    rw [← besideKeys_find key hkey]
    apply List.find?_congr
    intro k hk
    rw [hlower k hk, hlower key hmem]
  unfold canonicalKey
  simp only [hfind]

theorem canonicalKey_self {x : String} (hkey : canonicalKey py x = key)
    (hfeature : startsWith key featurePrefix = false)
    (hconstraint : startsWith key constraintsPrefix = false) : canonicalKey py key = key := by
  have hstart : ∀ start rest : String, startsWith (start ++ rest) start = true := by
    intro start rest
    rw [startsWith, String.toList_append]
    exact isPrefixOf_iff_prefix.mpr (prefix_append _ _)
  have hunfold := hkey
  unfold canonicalKey at hunfold
  simp only at hunfold
  split at hunfold
  · rename_i k hfind
    subst hunfold
    have hlower : py.lower k = py.lower x := by simpa using List.find?_some hfind
    unfold canonicalKey
    simp only [hlower, hfind]
  · split_ifs at hunfold
    · rw [← hunfold, hstart] at hfeature
      cases hfeature
    · rw [← hunfold, hstart] at hconstraint
      cases hconstraint
    · rw [hunfold] at hkey
      exact hkey

theorem besideKeys_settable : ∀ key ∈ besideKeys, key ∉ settableKeys := by decide

theorem settableKeys_feature : ∀ key ∈ settableKeys, startsWith key featurePrefix = false := by
  decide +kernel

theorem settableKeys_canonical : ∀ key ∈ settableKeys, key ∈ canonicalKeys := by
  intro key hkey
  obtain hkey | hkey := mem_append.mp hkey
  · exact mem_append_left _ hkey
  · rw [mem_singleton.mp hkey]
    exact mem_append_right _ mem_cons_self

theorem canonicalKey_congr {k key' : String} (hk : k ∈ canonicalKeys)
    (hlower : py.lower k = py.lower key) (hsame : py.lower key = py.lower key') :
    canonicalKey py key = canonicalKey py key' := by
  have hsome : (canonicalKeys.find? fun k => py.lower k = py.lower key).isSome = true :=
    List.find?_isSome.mpr ⟨k, hk, by simpa using hlower⟩
  obtain ⟨found, hfound⟩ := Option.isSome_iff_exists.mp hsome
  unfold canonicalKey
  simp only [← hsame, hfound]

theorem newConfig_get {value : String} {config : Config} (k : String) (hk : k ∉ besideKeys) :
    (newConfig py state key value config).get k =
      if k = key then some value else config.get k := by
  simp only [besideKeys, mem_cons, not_mem_nil, or_false, not_or] at hk
  unfold newConfig
  rw [Config.get_set]
  split_ifs
  · rfl
  · rw [Config.get_set, Config.get_set, if_neg hk.2.2, if_neg hk.2.1]
  · rfl

theorem mappingOf_get {s : Settings} {mapping : Option DataType × Config}
    (h : mappingOf py state key v s = .ok mapping) (k : String) (hk : k ∉ besideKeys) :
    mapping.2.get k = s.configuration.get k := by
  simp only [besideKeys, mem_cons, not_mem_nil, or_false, not_or] at hk
  unfold mappingOf enableColumnMapping at h
  simp only at h
  split_ifs at h
  · cases h
    rfl
  · cases h
    rw [Config.get_set, if_neg hk.1]
  · cases h
    rfl

/-! ## A mapping of values -/

/-- What each key has been given last. -/
abbrev Given := String → Option RawValue

def Given.next (py : Python) (given : Given) (property : String × RawValue) : Given := fun key =>
  if canonicalKey py property.1 = key then some property.2 else given key

/-- What a mapping gives each key last. -/
def givenBy (py : Python) (properties : List (String × RawValue)) : Given :=
  properties.foldl (Given.next py) fun _ => none

/-- A key that is stored as it is spelt. -/
structure Plain (py : Python) (key : String) : Prop where
  canonical : canonicalKey py key = key
  version : ¬ (key = "delta.minReaderVersion" ∨ key = "delta.minWriterVersion")
  constraint : startsWith key constraintsPrefix = false
  feature : startsWith key featurePrefix = false

/-- A value stored under its key, from the one given. -/
structure Settled (py : Python) (state : TableState) (s : Settings) (key : String) (raw : RawValue)
    (v : String) : Prop where
  plain : Plain py key
  allowed : Allowed py key raw
  normal : normaliseValue py key raw state.schema = .ok v
  stored : s.configuration.get key = some v
  clash : clashes py state.schema key v = false
  features : newFeatures py key v ⊆ s.features

/-- What the loop has come to: every value given is settled, and only canonical keys are written. -/
structure Loop (py : Python) (state : TableState) (given : Given) (s : Settings) : Prop where
  settled : ∀ key ∈ settableKeys, ∀ raw, given key = some raw → ∃ v, Settled py state s key raw v
  known : ∀ key ∈ canonicalKeys, given key ≠ none → key ∈ settableKeys
  changed : ∀ key, s.configuration.get key ≠ state.configuration.get key → canonicalKey py key = key

theorem canonicalKeys_cases : ∀ key ∈ canonicalKeys, key ∈ settableKeys ∨ key ∈ besideKeys ∨
    key = "delta.minReaderVersion" ∨ key = "delta.minWriterVersion" := by
  decide

theorem besideKeys_start : ∀ key ∈ besideKeys, startsWith key featurePrefix = false ∧
    startsWith key "delta." = true ∧ key ∉ knownKeys ∧ key ≠ "delta.enableRowTracking" := by
  decide

variable {given : Given}

theorem setProperty_loop (hpy : py.Lawful) {s : Settings} {property : String × RawValue}
    (h : Loop py state given s) (hs : setProperty py state s property = .ok s') :
    Loop py state (given.next py property) s' := by
  unfold setProperty at hs
  simp only at hs
  split_ifs at hs with hversion hconstraint hfeature
  · obtain ⟨name, -, rfl⟩ := Result.map_eq_ok_iff.mp hs
    constructor
    · intro key hkey raw hraw
      have hne : canonicalKey py property.1 ≠ key := by
        rintro rfl
        rw [settableKeys_feature _ hkey] at hfeature
        cases hfeature
      rw [Given.next, if_neg hne] at hraw
      obtain ⟨v, hsettled⟩ := h.settled key hkey raw hraw
      exact ⟨v, hsettled.plain, hsettled.allowed, hsettled.normal, hsettled.stored, hsettled.clash,
        subset_append_of_subset_left _ hsettled.features⟩
    · intro key hkey hgiven
      have hne : canonicalKey py property.1 ≠ key := by
        rintro rfl
        obtain hsettable | hbeside | hversions := canonicalKeys_cases _ hkey
        · rw [settableKeys_feature _ hsettable] at hfeature
          cases hfeature
        · rw [(besideKeys_start _ hbeside).1] at hfeature
          cases hfeature
        · exact hversion hversions
      rw [Given.next, if_neg hne] at hgiven
      exact h.known key hkey hgiven
    · exact h.changed
  · obtain ⟨hallowed, value, mapping, hvalue, hclash, hmapping, rfl⟩ := setValue_iff.mp hs
    have hplain : Plain py (canonicalKey py property.1) := by
      refine ⟨?_, hversion, by simpa using hconstraint, by simpa using hfeature⟩
      exact canonicalKey_self rfl (by simpa using hfeature) (by simpa using hconstraint)
    constructor
    · intro key hkey raw hraw
      unfold Given.next at hraw
      have hbeside : key ∉ besideKeys := fun hmem => besideKeys_settable key hmem hkey
      by_cases heq : canonicalKey py property.1 = key
      · rw [if_pos heq] at hraw
        cases hraw
        subst heq
        refine ⟨value, hplain, hallowed, hvalue, ?_, hclash, subset_append_right _ _⟩
        simp only [newConfig_get _ hbeside, if_true]
      · rw [if_neg heq] at hraw
        obtain ⟨v, hsettled⟩ := h.settled key hkey raw hraw
        refine ⟨v, hsettled.plain, hsettled.allowed, hsettled.normal, ?_, hsettled.clash,
          subset_append_of_subset_left _ hsettled.features⟩
        simp only [newConfig_get _ hbeside, if_neg (Ne.symm heq), mappingOf_get hmapping _ hbeside]
        exact hsettled.stored
    · intro key hkey hgiven
      by_cases heq : canonicalKey py property.1 = key
      · subst heq
        obtain hsettable | hbeside | hversions := canonicalKeys_cases _ hkey
        · exact hsettable
        · obtain ⟨-, hstart, hknown, htracking⟩ := besideKeys_start _ hbeside
          exact absurd (by simp [hstart, hknown, htracking]) hallowed.known
        · exact absurd hversions hversion
      · rw [Given.next, if_neg heq] at hgiven
        exact h.known key hkey hgiven
    · intro key hkey
      by_cases hbeside : key ∈ besideKeys
      · exact canonicalKey_beside hpy hbeside
      · simp only [newConfig_get _ hbeside, mappingOf_get hmapping _ hbeside] at hkey
        by_cases heq : key = canonicalKey py property.1
        · rw [heq]
          exact hplain.canonical
        · rw [if_neg heq] at hkey
          exact h.changed key hkey

theorem setProperties_loop (hpy : py.Lawful) {properties : List (String × RawValue)} {s : Settings}
    (h : Loop py state given s) (hs : properties.foldlM (setProperty py state) s = .ok s') :
    Loop py state (properties.foldl (Given.next py) given) s' := by
  induction properties generalizing s given with
  | nil =>
    cases hs
    exact h
  | cons property properties ih =>
    rw [foldlM_cons] at hs
    obtain ⟨next, hnext, hs⟩ := Result.bind_eq_ok_iff.mp hs
    exact ih (setProperty_loop hpy h hnext) hs

theorem get_ne_none {config : Config} (h : config.get key ≠ none) : ∃ e ∈ config, e.1 = key := by
  by_contra hnot
  apply h
  rw [Config.get_eq_none_iff]
  exact fun e he heq => hnot ⟨e, he, heq⟩

theorem sameConfig_iff {a b : Config} : sameConfig a b = true ↔ ∀ key, b.get key = a.get key := by
  constructor
  · intro h key
    simp only [sameConfig, Bool.and_eq_true, all_eq_true, decide_eq_true_eq] at h
    by_cases ha : a.get key = none
    · by_cases hb : b.get key = none
      · rw [ha, hb]
      · obtain ⟨e, he, hkey⟩ := get_ne_none hb
        exact hkey ▸ h.2 e he
    · obtain ⟨e, he, hkey⟩ := get_ne_none ha
      exact hkey ▸ h.1 e he
  · intro h
    simp [sameConfig, h]

theorem checkClusteringStats_same {configuration : Config}
    (h : ∀ key, state.configuration.get key = configuration.get key) :
    checkClusteringStats py state configuration = .ok () := by
  unfold checkClusteringStats
  simp only [h, and_self, if_true]

theorem setProperty_plain {s : Settings} (hplain : Plain py key) :
    setProperty py state s (key, raw) = setValue py state key raw s := by
  unfold setProperty
  simp only [hplain.canonical, if_neg hplain.version, hplain.constraint, hplain.feature,
    Bool.false_eq_true, if_false]

theorem Allowed.text (h : Allowed py key raw)
    (htracking : key = rowTrackingKey → py.lower v ≠ "true") : Allowed py key (.text v) where
  tracking := by
    intro hboth
    simp only [Bool.and_eq_true, decide_eq_true_eq] at hboth
    exact htracking hboth.1 hboth.2
  iceberg := h.iceberg
  known := h.known

theorem setProperties_one {s : Settings} :
    [(key, raw)].foldlM (setProperty py state) s = setProperty py state s (key, raw) := by
  rw [foldlM_cons]
  cases setProperty py state s (key, raw) with
  | error e => rfl
  | ok s' => rfl

theorem newConfig_same (hstored : state.configuration.get key = some v) (k : String) :
    (newConfig py state key v state.configuration).get k = state.configuration.get k := by
  unfold newConfig
  rw [Config.get_set, hstored, Option.getD_some]
  split_ifs with hk hstamped
  · rw [hk, hstored]
  · simp only [Bool.and_eq_true, decide_eq_true_eq] at hstamped
    exact absurd hstamped.1.2 hstamped.2
  · rfl

theorem setProperties_again (hkey : key ∈ settableKeys) (hplain : Plain py key)
    (hstored : state.configuration.get key = some v) (hallowed : Allowed py key (.text v))
    (hclash : clashes py state.schema key v = false)
    (hfeatures : protocolFor state.protocol (newFeatures py key v) = none)
    (hmode : key = cmMode → py.lower v = state.columnMappingMode py) :
    setProperties py state [(key, .text v)] = .ok .nothing ↔
      normaliseValue py key (.text v) state.schema = .ok v := by
  constructor
  · intro h
    obtain ⟨s, hs, -, hchange⟩ := setProperties_ok h
    rw [setProperties_one, setProperty_plain hplain] at hs
    obtain ⟨-, value, mapping, hvalue, -, hmapping, rfl⟩ := setValue_iff.mp hs
    have hbeside : key ∉ besideKeys := fun hmem => besideKeys_settable key hmem hkey
    have hsame := (Change.mk.injEq .. ▸ hchange).2.1
    unfold ifChanged at hsame
    simp only at hsame
    split_ifs at hsame with hcond
    simp only [Bool.and_eq_true] at hcond
    have hget := sameConfig_iff.mp hcond.2 key
    simp only [newConfig_get _ hbeside, if_true, hstored, Option.some.injEq] at hget
    rw [hvalue, ← hget]
  · intro h
    have hmapping : mappingOf py state key v ⟨state.configuration, [], none⟩ =
        .ok (none, state.configuration) := by
      unfold mappingOf enableColumnMapping
      by_cases hcm : key = cmMode
      · simp only [if_pos hcm, if_pos (hmode hcm)]
      · rw [if_neg hcm]
    have hset : setValue py state key (.text v) ⟨state.configuration, [], none⟩ =
        .ok ⟨newConfig py state key v state.configuration, newFeatures py key v, none⟩ :=
      setValue_iff.mpr ⟨hallowed, v, _, h, hclash, hmapping, rfl⟩
    have hconfig := @newConfig_same py _ _ _ hstored
    unfold setProperties
    rw [setProperties_one, setProperty_plain hplain, hset]
    have hnone : ifChanged state { state.metadata with
        schema := (none : Option DataType).getD state.schema
        configuration := newConfig py state key v state.configuration } = none := by
      unfold ifChanged
      have hsame : sameConfig (newConfig py state key v state.configuration)
          state.configuration = true := sameConfig_iff.mpr fun k => (hconfig k).symm
      simp [hsame]
    refine Result.bind_eq_ok_iff.mpr ⟨_, rfl, ?_⟩
    refine Result.bind_eq_ok_iff.mpr ⟨(), checkClusteringStats_same fun k => (hconfig k).symm, ?_⟩
    rw [Result.pure_eq_ok_iff]
    simp only [hfeatures, hnone]
    rfl

theorem assignIds_fields (physical : String → Int → String) (fields : List Field) (next : Int) :
    List.Forall₂ (fun f g => ∃ m, g = assigned physical f m) fields
      (assignIds physical fields next).1 := by
  induction fields generalizing next with
  | nil => exact .nil
  | cons f fields ih =>
    rw [assignIds_cons]
    exact .cons ⟨next, rfl⟩ (ih _)

variable {fields : List Field}

theorem any_assigned {physical : String → Int → String} (p : String → Bool) {fields' : List Field}
    (h : List.Forall₂ (fun f g => ∃ m, g = assigned physical f m) fields fields') :
    (fields'.any fun f => p f.name) = fields.any fun f => p f.name := by
  induction h with
  | nil => rfl
  | cons hg _ ih =>
    obtain ⟨m, rfl⟩ := hg
    rw [any_cons, any_cons, ih]
    rfl

theorem find?_assigned {physical : String → Int → String} {p : String → Bool} {fields' : List Field}
    (h : List.Forall₂ (fun f g => ∃ m, g = assigned physical f m) fields fields') {start : Nat}
    {f : Field} {i : Nat}
    (hfind : (fields.zipIdx start).find? (fun e => p e.1.name) = some (f, i)) :
    ∃ m, (fields'.zipIdx start).find? (fun e => p e.1.name) = some (assigned physical f m, i) := by
  induction h generalizing start with
  | nil => cases hfind
  | @cons f₀ g₀ fields fields' hg _ ih =>
    obtain ⟨m, rfl⟩ := hg
    have hname : (assigned physical f₀ m).name = f₀.name := rfl
    rw [zipIdx_cons, List.find?_cons] at hfind ⊢
    simp only [hname] at hfind ⊢
    cases hp : p f₀.name with
    | true =>
      rw [hp] at hfind
      cases hfind
      exact ⟨m, rfl⟩
    | false =>
      rw [hp] at hfind
      exact ih hfind

theorem find_assigned (physical : String → Int → String) {path : List String} {found : Found}
    (next : Int) (h : find py fields path = .ok found) :
    ∃ found', find py (assignIds physical fields next).1 path = .ok found' := by
  induction path generalizing fields found next with
  | nil => cases h
  | cons name rest ih =>
    rw [find] at h ⊢
    split at h
    · cases h
    · rename_i f i hfind
      obtain ⟨m, hfind'⟩ := find?_assigned (p := fun n => py.lower n = py.lower name)
        (assignIds_fields physical fields next) hfind
      rw [hfind']
      simp only
      by_cases hrest : rest = []
      · rw [if_pos hrest]
        exact ⟨_, rfl⟩
      · rw [if_neg hrest] at h ⊢
        split at h
        · rename_i child htype
          obtain ⟨r, hr, -⟩ := Result.map_eq_ok_iff.mp h
          have htype' : (assigned physical f m).type =
              .struct (assignIds physical child (m + 1)).1 := by
            change (assignType physical f.type (m + 1)).1 = _
            rw [htype]
            rfl
          obtain ⟨found', hfound'⟩ := ih (m + 1) hr
          rw [htype']
          simp only [hfound']
          exact ⟨_, rfl⟩
        · cases h

theorem checkEntries_cons {entry : String} {rest : List String} :
    checkEntries py schema (entry :: rest) = .ok () ↔
      (strip py entry ≠ "" → ∃ path found, splitIdentifier py (strip py entry) = .ok path ∧
        find py schema.fields path = .ok found) ∧ checkEntries py schema rest = .ok () := by
  rw [checkEntries]
  by_cases hempty : strip py entry ≠ ""
  · rw [if_pos hempty]
    simp only [Result.bind_eq_ok_iff]
    constructor
    · rintro ⟨path, hpath, found, hfound, hrest⟩
      exact ⟨fun _ => ⟨path, found, hpath, hfound⟩, hrest⟩
    · rintro ⟨hcolumn, hrest⟩
      obtain ⟨path, found, hpath, hfound⟩ := hcolumn hempty
      exact ⟨path, hpath, found, hfound, hrest⟩
  · rw [if_neg hempty]
    exact ⟨fun h => ⟨fun hne => absurd hne hempty, h⟩, fun h => h.2⟩

theorem checkEntries_assigned (physical : String → Int → String) {entries : List String}
    (next : Int) (h : checkEntries py schema entries = .ok ()) :
    checkEntries py (.struct (assignIds physical schema.fields next).1) entries = .ok () := by
  induction entries with
  | nil => rfl
  | cons entry entries ih =>
    rw [checkEntries_cons] at h ⊢
    obtain ⟨hcolumn, hrest⟩ := h
    refine ⟨?_, ih hrest⟩
    intro hne
    obtain ⟨path, found, hpath, hfound⟩ := hcolumn hne
    obtain ⟨found', hfound'⟩ := find_assigned physical next hfound
    exact ⟨path, found', hpath, hfound'⟩

/-! ## The state left -/

section
variable {change : Change} {properties : List (String × RawValue)} {s : Settings}

theorem setProperties_after (h : change = ⟨protocolFor state.protocol s.features, ifChanged state
      { state.metadata with
        schema := s.schema.getD state.schema
        configuration := s.configuration }, none⟩) :
    (∀ k, (state.apply change).configuration.get k = s.configuration.get k) ∧
      (state.apply change).schema = s.schema.getD state.schema ∧
      (state.apply change).protocol =
        (protocolFor state.protocol s.features).getD state.protocol := by
  subst h
  unfold ifChanged
  split_ifs with hcond
  · simp only [Bool.and_eq_true, decide_eq_true_eq] at hcond
    refine ⟨fun k => ?_, ?_, rfl⟩
    · exact sameConfig_iff.mp hcond.2 k
    · exact hcond.1.1.symm
  · exact ⟨fun _ => rfl, rfl, rfl⟩

end

theorem sameColumns {s : Settings} (h : MappingSet py state s) (schema : DataType)
    (hschema : schema = s.schema.getD state.schema) :
    (∀ entries, checkEntries py state.schema entries = .ok () →
      checkEntries py schema entries = .ok ()) ∧
    (schema.fields.any fun f => py.lower f.name ∈ cdfReserved) =
      state.schema.fields.any fun f => py.lower f.name ∈ cdfReserved := by
  subst hschema
  obtain ⟨hnone, -⟩ | ⟨hsome, -⟩ := h
  · rw [hnone]
    exact ⟨fun _ h => h, rfl⟩
  · rw [hsome, Option.getD_some]
    constructor
    · exact fun entries h => checkEntries_assigned logical 1 h
    · exact any_assigned (fun name => py.lower name ∈ cdfReserved)
        (assignIds_fields logical state.schema.fields 1)

theorem givenBy_some {properties : List (String × RawValue)}
    (h : properties.foldl (Given.next py) given key = some raw) :
    (∃ p ∈ properties, canonicalKey py p.1 = key ∧ p.2 = raw) ∨ given key = some raw := by
  induction properties generalizing given with
  | nil => exact .inr h
  | cons property properties ih =>
    obtain ⟨p, hp, hkey⟩ | hlast := ih h
    · exact .inl ⟨p, mem_cons_of_mem _ hp, hkey⟩
    · unfold Given.next at hlast
      split_ifs at hlast with heq
      · cases hlast
        exact .inl ⟨property, mem_cons_self, heq, rfl⟩
      · exact .inr hlast

theorem givenBy_ne_none {properties : List (String × RawValue)}
    (h : (∃ p ∈ properties, canonicalKey py p.1 = key) ∨ given key ≠ none) :
    properties.foldl (Given.next py) given key ≠ none := by
  induction properties generalizing given with
  | nil => simpa using h
  | cons property properties ih =>
    apply ih
    obtain ⟨p, hp, hkey⟩ | hgiven := h
    · obtain rfl | hp := mem_cons.mp hp
      · right
        simp [Given.next, hkey]
      · exact .inl ⟨p, hp, hkey⟩
    · right
      unfold Given.next
      split_ifs
      · simp
      · exact hgiven

/-- What is stored after a change is what every reader parses. -/
structure WellStored (py : Python) (state : TableState) (properties : List (String × RawValue))
    (after : TableState) : Prop where
  /-- A known key is stored in its canonical spelling. -/
  canonical : ∀ key, after.configuration.get key ≠ state.configuration.get key →
    canonicalKey py key = key
  /-- Two spellings of a known key are not both written. -/
  single : ∀ key key', after.configuration.get key ≠ state.configuration.get key →
    after.configuration.get key' ≠ state.configuration.get key' →
      (∃ k ∈ canonicalKeys, py.lower k = py.lower key) → py.lower key = py.lower key' → key = key'
  /-- The value of a known key passes the strict check, and set again it changes nothing. -/
  kept : ∀ p ∈ properties, canonicalKey py p.1 ∈ canonicalKeys → ∃ v,
    after.configuration.get (canonicalKey py p.1) = some v ∧
      valueProblem py (canonicalKey py p.1) v = .ok none ∧
        setProperties py after [(canonicalKey py p.1, .text v)] = .ok .nothing

theorem normaliseValue_schema (hkey : key ≠ statsColumns) (schema schema' : DataType) :
    normaliseValue py key raw schema = normaliseValue py key raw schema' := by
  unfold normaliseValue
  simp only [if_neg hkey]

theorem reread_schema (hkey : key ≠ statsColumns) (schema schema' : DataType) :
    Reread py schema key v ↔ Reread py schema' key v := by
  rw [Reread, Reread, normaliseValue_schema hkey schema schema']

/-- A key but row tracking's is stored to stay exactly when what was given for it is legible. -/
theorem Settled.reread_iff (hpy : py.Lawful) {s : Settings} (h : Settled py state s key raw v)
    (hkey : key ∈ settableKeys) (htracking : key ≠ rowTrackingKey)
    (hcolumns : ∀ entries, checkEntries py state.schema entries = .ok () →
      checkEntries py schema entries = .ok ()) : Reread py schema key v ↔ Legible py key raw := by
  by_cases hstats : key = statsColumns
  · subst hstats
    have hlegible : Legible py statsColumns raw :=
      legible_of_plain (by decide) (by decide) (by decide) (by decide)
    refine iff_of_true ?_ hlegible
    obtain ⟨hproblem, hagain⟩ := (Metadata.reread_iff hpy hkey h.normal htracking).mpr hlegible
    refine ⟨hproblem, ?_⟩
    rw [normaliseValue_stats] at hagain ⊢
    obtain ⟨⟨⟩, hentries, hv⟩ := Result.map_eq_ok_iff.mp hagain
    rw [hcolumns _ hentries, ← hv, strip_strip]
    rfl
  · rw [reread_schema hstats schema state.schema]
    exact Metadata.reread_iff hpy hkey h.normal htracking

theorem Settled.tracking_iff (hpy : py.Lawful) {s : Settings}
    (h : Settled py state s rowTrackingKey raw v) :
    Legible py rowTrackingKey raw ↔ py.lower v ≠ "true" := by
  obtain ⟨hv, hflag⟩ := normaliseValue_boolean (by decide) h.normal
  have hraw : py.lower raw.str ≠ "true" := by
    intro htrue
    exact h.allowed.tracking (by simp [rowTrackingKey, htrue])
  have hlower : py.lower v = v := by rw [hv, hpy.lower_lower]
  rw [hlower]
  constructor
  · rintro hlegible rfl
    exact hlegible.tracking rfl ⟨hv.symm, hraw⟩
  · intro hne
    refine ⟨fun h => absurd h (by decide), fun h => absurd h (by decide),
      fun h => absurd h (by decide), ?_⟩
    rintro - ⟨htrue, -⟩
    exact hne (hv.trans htrue)

/-- The values of a mapping are stored as every reader parses them exactly when what it gives each
key last is legible. -/
theorem setProperties_wellStored_iff (hpy : py.Lawful) {properties : List (String × RawValue)}
    {change : Change} (h : setProperties py state properties = .ok change) :
    WellStored py state properties (state.apply change) ↔
      ∀ key ∈ settableKeys, ∀ raw, givenBy py properties key = some raw → Legible py key raw := by
  obtain ⟨s, hs, -, hchange⟩ := setProperties_ok h
  have hloop : Loop py state (givenBy py properties) s := by
    apply setProperties_loop hpy _ hs
    exact ⟨fun _ _ _ h => (nomatch h), fun _ _ h => absurd rfl h, fun _ h => absurd rfl h⟩
  obtain ⟨hget, hschema, hprotocol⟩ := setProperties_after hchange
  obtain ⟨hcolumns, hreserved⟩ :=
    sameColumns (setProperties_mappingSet mappingSet_start hs) _ hschema
  generalize state.apply change = after at hget hschema hprotocol hcolumns hreserved ⊢
  -- what setting a value again does to the state left
  have hagain : ∀ key ∈ settableKeys, ∀ raw v, Settled py state s key raw v →
      Allowed py key (.text v) → (setProperties py after [(key, .text v)] = .ok .nothing ↔
        normaliseValue py key (.text v) after.schema = .ok v) := by
    intro key hkey raw v hsettled hallowed
    have hstored : after.configuration.get key = some v := by rw [hget, hsettled.stored]
    apply setProperties_again hkey hsettled.plain hstored hallowed
    · rw [← hsettled.clash, clashes, clashes, hreserved]
    · rw [hprotocol]
      exact protocolFor_again state.protocol hsettled.features
    · rintro rfl
      rw [TableState.columnMappingMode, columnMappingMode, hstored, Option.getD_some]
  have hkept : ∀ key ∈ settableKeys, ∀ raw, givenBy py properties key = some raw →
      ((∃ v, after.configuration.get key = some v ∧ valueProblem py key v = .ok none ∧
        setProperties py after [(key, .text v)] = .ok .nothing) ↔ Legible py key raw) := by
    intro key hkey raw hraw
    obtain ⟨v, hsettled⟩ := hloop.settled key hkey raw hraw
    have hstored : after.configuration.get key = some v := by rw [hget, hsettled.stored]
    constructor
    · rintro ⟨v', hv', hproblem, hset⟩
      cases hv'.symm.trans hstored
      by_cases htracking : key = rowTrackingKey
      · subst htracking
        rw [hsettled.tracking_iff hpy]
        intro htrue
        obtain ⟨s', hs', -⟩ := setProperties_ok hset
        rw [setProperties_one, setProperty_plain hsettled.plain] at hs'
        exact (setValue_iff.mp hs').1.tracking (by simp [rowTrackingKey, RawValue.str, htrue])
      · have hallowed := hsettled.allowed.text (v := v) fun heq => absurd heq htracking
        rw [← hsettled.reread_iff hpy hkey htracking hcolumns]
        exact ⟨hproblem, (hagain key hkey raw v hsettled hallowed).mp hset⟩
    · intro hlegible
      have hallowed : Allowed py key (.text v) := by
        apply hsettled.allowed.text
        rintro rfl
        exact (hsettled.tracking_iff hpy).mp hlegible
      have hreread : Reread py after.schema key v := by
        by_cases htracking : key = rowTrackingKey
        · subst htracking
          exact reread_boolean hpy (by decide)
            (normaliseValue_boolean (by decide) hsettled.normal).2
        · exact (hsettled.reread_iff hpy hkey htracking hcolumns).mpr hlegible
      exact ⟨v, hstored, hreread.1, (hagain key hkey raw v hsettled hallowed).mpr hreread.2⟩
  have hchanged : ∀ key, after.configuration.get key ≠ state.configuration.get key →
      canonicalKey py key = key := fun key hne => hloop.changed key (by rwa [← hget])
  constructor
  · intro hstored key hkey raw hraw
    obtain ⟨p, hp, rfl, -⟩ | hnone := givenBy_some hraw
    · have hmem := settableKeys_canonical _ hkey
      exact (hkept _ hkey raw hraw).mp (hstored.kept p hp hmem)
    · cases hnone
  · intro hlegible
    refine ⟨hchanged, ?_, ?_⟩
    · rintro key key' hne hne' ⟨k, hk, hlower⟩ hsame
      rw [← hchanged key hne, ← hchanged key' hne']
      exact canonicalKey_congr hk hlower hsame
    · intro p hp hmem
      have hsome : givenBy py properties (canonicalKey py p.1) ≠ none :=
        givenBy_ne_none (.inl ⟨p, hp, rfl⟩)
      have hkey := hloop.known _ hmem hsome
      obtain ⟨raw, hraw⟩ := Option.ne_none_iff_exists'.mp hsome
      exact (hkept _ hkey raw hraw).mpr (hlegible _ hkey raw hraw)

end

/-- The change that stores one value. -/
def storing (key value : String) : Change where
  protocol := none
  metadata := some { plainState.metadata with configuration := [(key, value)] }
  clustering := none

theorem setProperties_wellStored_flag :
    WellStored ascii plainState [("DELTA.appendonly", .text " TRUE ")]
      (plainState.apply (storing "delta.appendOnly" "true")) := by
  have hset : setProperties ascii plainState [("DELTA.appendonly", .text " TRUE ")] =
      .ok (storing "delta.appendOnly" "true") := by decide +kernel
  have hcanonical : canonicalKey ascii "DELTA.appendonly" = "delta.appendOnly" := by
    decide +kernel
  refine (setProperties_wellStored_iff ascii_lawful hset).mpr ?_
  intro key _ raw hraw
  obtain ⟨p, hp, hkey, -⟩ | hnone := givenBy_some hraw
  · rw [mem_singleton.mp hp, hcanonical] at hkey
    rw [← hkey]
    exact legible_of_plain (by decide) (by decide) (by decide) (by decide)
  · cases hnone

/-- A size of nothing is stored, and no reader takes it. -/
theorem zero_size_stored :
    setProperties ascii plainState [("delta.targetFileSize", .text "0")] =
        .ok (storing "delta.targetFileSize" "0") ∧
      valueProblem ascii "delta.targetFileSize" "0" = .ok (some .notByteSize) ∧
      ¬ WellStored ascii plainState [("delta.targetFileSize", .text "0")]
        (plainState.apply (storing "delta.targetFileSize" "0")) := by
  have hkey : canonicalKey ascii "delta.targetFileSize" = "delta.targetFileSize" := by
    decide +kernel
  have hproblem : valueProblem ascii "delta.targetFileSize" "0" = .ok (some .notByteSize) := by
    decide +kernel
  refine ⟨by decide +kernel, hproblem, ?_⟩
  intro h
  obtain ⟨v, hv, hnone, -⟩ := h.kept ("delta.targetFileSize", .text "0") mem_cons_self (by
    rw [hkey]
    decide)
  rw [hkey] at hv hnone
  cases hv
  rw [hproblem] at hnone
  cases hnone

end DeltaSwamp.Metadata
