import DeltaSwamp.Metadata.Coverage

/-!
# The protocol covers the metadata

What each accepted change does to a protocol that covers its metadata, and what
a run of them does as long as no event declares what it does not support.
-/

namespace DeltaSwamp.Metadata

open List

section
variable {py : Python} {state state' : TableState} {change : Change}

variable {config : Config} {value : String}

theorem configFeatures_set {config' : Config} {key : String} (hkey : config'.get key = some value)
    (hother : ∀ k ∈ watchedKeys, k ≠ key → config'.get k = config.get k) {x : String}
    (hx : x ∈ configFeatures py config') :
    x ∈ configFeatures py config ∨ ((key, x) ∈ enablingKeys ∧ py.lower value = "true") ∨
      (key = policyKey ∧ py.lower value = "v2" ∧ x = "v2Checkpoint") ∨
      (key = cmMode ∧ py.lower value ≠ "none" ∧ x = "columnMapping") := by
  simp only [configFeatures, mem_append, mem_map, mem_filter] at hx ⊢
  rcases hx with (⟨e, ⟨he, htrue⟩, rfl⟩ | hx) | hx
  · rw [setsTrue] at htrue
    by_cases heq : e.1 = key
    · rw [heq, hkey] at htrue
      exact .inr (.inl ⟨heq ▸ he, by simpa using htrue⟩)
    · rw [hother e.1 (mem_append_left _ (mem_map_of_mem he)) heq] at htrue
      exact .inl (.inl (.inl ⟨e, ⟨he, htrue⟩, rfl⟩))
  · by_cases hpolicy : policyV2 py config' = true
    · rw [if_pos hpolicy, mem_singleton] at hx
      rw [policyV2] at hpolicy
      by_cases heq : policyKey = key
      · rw [heq, hkey] at hpolicy
        exact .inr (.inr (.inl ⟨heq.symm, by simpa using hpolicy, hx⟩))
      · rw [hother policyKey (by decide) heq] at hpolicy
        have hold : policyV2 py config = true := hpolicy
        rw [if_pos hold, hx]
        exact .inl (.inl (.inr (mem_singleton_self _)))
    · rw [if_neg hpolicy] at hx
      simp at hx
  · by_cases hmapped : mapped py config' = true
    · rw [if_pos hmapped, mem_singleton] at hx
      by_cases heq : cmMode = key
      · right
        right
        right
        refine ⟨heq.symm, ?_, hx⟩
        have hmode := mapped_ne_none hmapped
        rw [columnMappingMode, heq, hkey, Option.getD_some] at hmode
        exact hmode
      · rw [mapped_of_get (hother cmMode (by decide) heq)] at hmapped
        rw [if_pos hmapped, hx]
        exact .inl (.inr (mem_singleton_self _))
    · rw [if_neg hmapped] at hx
      simp at hx

/-- The text a value is before it is trimmed. -/
def RawValue.given (py : Python) : RawValue → String
  | .bool b => py.lower (RawValue.bool b).str
  | raw => raw.str

/-- A value that is true once it is trimmed, though not as it is given. -/
def onlyTrimmedTrue (py : Python) (raw : RawValue) : Prop :=
  py.lower (strip py (raw.given py)) = "true" ∧ py.lower raw.str ≠ "true"

/-- No property turns row tracking on past its refusal. -/
def KeepsRowTracking (py : Python) (state : TableState) (properties : List (String × RawValue)) :
    Prop :=
  ∀ p ∈ properties, canonicalKey py p.1 = rowTrackingKey → onlyTrimmedTrue py p.2 →
    supports state.protocol "rowTracking"

theorem lower_false (py : Python) : py.lower "false" = "false" := py.lower_ascii _ (by decide)

theorem normaliseValue_rowTracking {raw : RawValue} {schema : DataType}
    (h : normaliseValue py rowTrackingKey raw schema = .ok value)
    (htrue : py.lower value = "true") :
    py.lower (strip py (raw.given py)) = "true" := by
  have hboolean : rowTrackingKey ∈ booleanKeys := by decide
  have hcases : normaliseValue py rowTrackingKey raw schema =
      if raw = .none then .error (.badProperty rowTrackingKey)
      else if py.lower (strip py (raw.given py)) = "true" ∨
          py.lower (strip py (raw.given py)) = "false" then
        .ok (py.lower (strip py (raw.given py)))
      else .error (.badProperty rowTrackingKey) := by
    unfold normaliseValue
    simp only [if_pos hboolean]
    cases raw <;> rfl
  rw [hcases] at h
  split_ifs at h with hnone hlowered
  cases h
  rcases hlowered with hlowered | hlowered
  · exact hlowered
  · rw [hlowered, lower_false] at htrue
    exact absurd htrue (by decide)

/-- What the loop of `set_properties` has come to is covered. -/
def SettingsCovered (py : Python) (state : TableState) (s : Settings) : Prop :=
  ∀ x ∈ configFeatures py s.configuration,
    x ∈ configFeatures py state.configuration ∨ supports state.protocol x ∨ x ∈ s.features

theorem enablingKeys_start : ∀ e ∈ enablingKeys, startsWith e.1 "delta." = true := by decide

theorem enablingKeys_lookup :
    ∀ e ∈ enablingKeys, e.1 ∈ knownKeys → enabling.lookup e.1 = some e.2 := by decide

theorem enablingKeys_rowTracking :
    ∀ e ∈ enablingKeys, e.1 = rowTrackingKey → e.2 = "rowTracking" := by decide

theorem setValue_get {key : String} {config' : Config} {stamp : Bool} {version : String}
    (hmax : ∀ k ∈ watchedKeys, config'.get k = config.get k) :
    ∀ k ∈ watchedKeys, k ≠ key →
      Config.get ((if stamp = true then
          (config'.set "delta.inCommitTimestampEnablementVersion" version).set
            "delta.inCommitTimestampEnablementTimestamp" "__ICT__"
        else config').set key value) k = config.get k := by
  intro k hk hne
  rw [Config.get_set, if_neg hne]
  split_ifs
  · rw [watched_set (by decide) k hk, watched_set (by decide) k hk, hmax k hk]
  · exact hmax k hk

theorem enableColumnMapping_get {mode : String} {r : Option DataType × Config}
    (h : enableColumnMapping py state mode config = .ok r) :
    ∀ k ∈ watchedKeys, r.2.get k = config.get k := by
  unfold enableColumnMapping at h
  simp only at h
  split_ifs at h
  · cases h
    exact fun _ _ => rfl
  · cases h
    exact watched_set (by decide)

theorem setProperty_covered {s s' : Settings} {property : String × RawValue}
    (hrow : KeepsRowTracking py state [property]) (h : SettingsCovered py state s)
    (hs : setProperty py state s property = .ok s') : SettingsCovered py state s' := by
  unfold setProperty at hs
  simp only at hs
  split_ifs at hs with hversion hconstraint hfeature
  · obtain ⟨name, -, rfl⟩ := Result.map_eq_ok_iff.mp hs
    intro x hx
    rcases h x hx with hold | hsupported | hmem
    · exact .inl hold
    · exact .inr (.inl hsupported)
    · exact .inr (.inr (mem_append_left _ hmem))
  · obtain ⟨htracking, hknown, value, mapping, hvalue, hmapping, rfl⟩ := setValue_ok hs
    have hmax : ∀ k ∈ watchedKeys, mapping.2.get k = s.configuration.get k := by
      by_cases hkey : canonicalKey py property.1 = cmMode
      · rw [if_pos hkey] at hmapping
        exact enableColumnMapping_get hmapping
      · rw [if_neg hkey] at hmapping
        cases hmapping
        exact fun _ _ => rfl
    intro x hx
    rcases configFeatures_set (by rw [Config.get_set, if_pos rfl]) (setValue_get hmax) hx with
      hold | ⟨henabling, htrue⟩ | ⟨hkey, hv2, rfl⟩ | ⟨hkey, hmode, rfl⟩
    · rcases h x hold with hold | hsupported | hmem
      · exact .inl hold
      · exact .inr (.inl hsupported)
      · right
        right
        simp [hmem]
    · have hstart : startsWith (canonicalKey py property.1) "delta." = true :=
        enablingKeys_start _ henabling
      rcases hknown hstart with hmem | hrowKey
      · have hlookup : enabling.lookup (canonicalKey py property.1) = some x :=
          enablingKeys_lookup _ henabling hmem
        right
        right
        simp [htrue, hlookup]
      · have hkey : canonicalKey py property.1 = rowTrackingKey := hrowKey
        have hx : x = "rowTracking" := enablingKeys_rowTracking _ henabling hkey
        right
        left
        rw [hx]
        apply hrow property (mem_singleton_self _) hkey
        rw [hkey] at hvalue
        exact ⟨normaliseValue_rowTracking hvalue htrue, fun hraw => htracking ⟨hrowKey, hraw⟩⟩
    · right
      right
      have hpolicy : canonicalKey py property.1 = "delta.checkpointPolicy" := hkey
      simp [hpolicy, hv2]
    · right
      right
      simp [hkey, hmode]

theorem setProperties_covered {properties : List (String × RawValue)} {s s' : Settings}
    (hrow : KeepsRowTracking py state properties) (h : SettingsCovered py state s)
    (hs : properties.foldlM (setProperty py state) s = .ok s') : SettingsCovered py state s' := by
  induction properties generalizing s with
  | nil =>
    cases hs
    exact h
  | cons property properties ih =>
    rw [foldlM_cons] at hs
    obtain ⟨next, hnext, hs⟩ := Result.bind_eq_ok_iff.mp hs
    refine ih (fun p hp => hrow p (mem_cons_of_mem _ hp)) ?_ hs
    refine setProperty_covered ?_ h hnext
    intro p hp
    rw [mem_singleton] at hp
    exact hp ▸ hrow property mem_cons_self

theorem upgraded_setProperties {properties : List (String × RawValue)} (h : Covered py state)
    (hrow : KeepsRowTracking py state properties)
    (hact : setProperties py state properties = .ok change) :
    Upgraded py state (state.apply change) := by
  obtain ⟨s, hs, -, rfl⟩ := setProperties_ok hact
  have hcovered : SettingsCovered py state s :=
    setProperties_covered hrow (fun x hx => .inl hx) hs
  have hschema : ∀ prim own, Blind own → ∀ x ∈ (s.schema.getD state.schema).markNames prim own,
      x ∈ state.schema.markNames prim own := by
    intro prim own hown x hx
    rcases setProperties_mappingSet mappingSet_start hs with ⟨hnone, -, -⟩ | ⟨hsome, -, -, -⟩
    · rw [hnone] at hx
      exact hx
    · rw [hsome] at hx
      exact markNames_fields ((markNames_assign hown _).2 _ _ x hx)
  apply upgraded_of_schema s.features h
  · exact protocolFor_extended h.wellFormed s.features
  · intro x hx
    left
    rcases ifChanged_cases state { state.metadata with
      schema := s.schema.getD state.schema
      configuration := s.configuration } with hsame | hsame
    · rw [schema_apply_none hsame] at hx
      exact hx
    · rw [schema_apply hsame] at hx
      exact hschema _ _ blind_noColumnMark x hx
  · intro x hx
    left
    rcases ifChanged_cases state { state.metadata with
      schema := s.schema.getD state.schema
      configuration := s.configuration } with hsame | hsame
    · rw [schema_apply_none hsame] at hx
      exact hx
    · rw [schema_apply hsame] at hx
      exact hschema _ _ blind_columnMark x hx
  · intro x hx
    rcases ifChanged_cases state { state.metadata with
      schema := s.schema.getD state.schema
      configuration := s.configuration } with hsame | hsame
    · rw [configuration_apply_none hsame] at hx
      exact .inl hx
    · rw [configuration_apply hsame] at hx
      exact hcovered x hx

theorem strip_supported (py : Python) : strip py "supported" = "supported" := by
  have hs : py.isSpace 's' = false := py.isSpace_alpha 's' (by decide)
  have hd : py.isSpace 'd' = false := py.isSpace_alpha 'd' (by decide)
  simp [strip, hs, hd]

theorem upgraded_addFeature {feature : String} (h : Covered py state)
    (hact : addFeature py state feature = .ok change) :
    Upgraded py state (state.apply change) := by
  refine upgraded_setProperties h ?_ hact
  intro p hp hkey htrue
  rw [mem_singleton] at hp
  subst hp
  have hlower : py.lower "supported" = "supported" := py.lower_ascii _ (by decide)
  have hsupported : py.lower (strip py "supported") = "true" := htrue.1
  rw [strip_supported, hlower] at hsupported
  exact absurd hsupported (by decide)

theorem unsetKeys_cases {ifExists : Bool} {keys removed : List String} {r : Config × List String}
    (h : unsetKeys py ifExists config removed keys = .ok r) (key : String) :
    r.1.get key = config.get key ∨ r.1.get key = none := by
  induction keys generalizing config removed with
  | nil =>
    cases h
    exact .inl rfl
  | cons raw keys ih =>
    rw [unsetKeys] at h
    split_ifs at h with hrefused hstamp htracking hthere hexists
    · exact ih h
    · rcases ih h with hsame | hnone
      · rw [Config.get_remove] at hsame
        split_ifs at hsame with hkey
        · exact .inr hsame
        · exact .inl hsame
      · exact .inr hnone

theorem upgraded_unsetProperties {keys : List String} {ifExists : Bool} (h : Covered py state)
    (hact : unsetProperties py state keys ifExists = .ok change) :
    Upgraded py state (state.apply change) := by
  obtain ⟨r, hr, ⟨-, rfl⟩ | ⟨-, rfl⟩⟩ := unsetProperties_ok hact
  · exact upgraded_nothing h
  · apply upgraded_of_schema [] h
    · exact extended_none h.wellFormed
    · exact fun x hx => .inl hx
    · exact fun x hx => .inl hx
    · intro x hx
      left
      refine configFeatures_subset ?_ hx
      intro key _
      by_cases hmode : key = cmMode
      · exact .inl (unsetKeys_get hr (.inl hmode))
      · rcases unsetKeys_cases hr key with hsame | hnone
        · exact .inl hsame
        · exact .inr ⟨hnone, hmode⟩

theorem upgraded_clusterBy {columns : List String} (h : Covered py state)
    (hact : clusterBy py state columns = .ok change) :
    Upgraded py state (state.apply change) := by
  obtain ⟨-, physical, -, rfl | rfl⟩ := clusterBy_ok hact
  · exact upgraded_nothing h
  · apply upgraded_of_schema ["clustering", "domainMetadata"] h
    · exact withFeatures_extended h.wellFormed _
    · exact fun x hx => .inl hx
    · exact fun x hx => .inl hx
    · exact fun x hx => .inl hx

theorem legacy_raised {p : Protocol} (hp : WellFormed p) (hwriter : p.minWriterVersion < 3) :
    WellFormed { p with minWriterVersion := 3 } ∧
      supportedFeatures p ⊆ supportedFeatures { p with minWriterVersion := 3 } ∧
      ∀ f ∈ supportedFeatures { p with minWriterVersion := 3 }, dependencyGraph.next f = [] := by
  refine ⟨?_, ?_, ?_⟩
  · rcases hp with ⟨hreader, -, hreaders, hwriters⟩ | ⟨-, heq, -, -⟩
    · exact .inl ⟨hreader, by simp, hreaders, hwriters⟩
    · omega
  · intro f hf
    rw [supportedFeatures, if_neg (by omega)] at hf
    have hsmall : ∀ version < 3, legacyWriter version ⊆ legacyWriter 3 := by decide
    exact hsmall _ hwriter hf
  · intro f hf
    have hnone : ∀ f ∈ legacyWriter 3, dependencyGraph.next f = [] := by decide
    exact hnone f hf

theorem upgraded_addConstraints {constraints : List (String × String)} (h : Covered py state)
    (hact : addConstraints py state constraints = .ok change) :
    Upgraded py state (state.apply change) := by
  rcases addConstraints_ok hact with rfl | ⟨added, hadded, rfl⟩
  · exact upgraded_nothing h
  · have hwatched : ∀ key ∈ watchedKeys, startsWith key constraintsPrefix = false := by decide
    have hneeded : ∀ x ∈ neededFeatures py { state.metadata with
        configuration := added.foldl (fun config e => config.set e.1 e.2) state.configuration },
        x ∈ neededFeatures py state.metadata := by
      intro x hx
      rw [neededFeatures, mem_append] at hx ⊢
      refine hx.imp_right fun hx => configFeatures_of_get ?_ hx
      exact fun key hkey => get_addedConstraints hadded (hwatched key hkey) state.configuration
    split_ifs at hact ⊢ with htable hlegacy
    · refine upgraded_of_extended h (withFeatures_extended h.wellFormed ["checkConstraints"]) ?_
      exact fun x hx => .inl (hneeded x hx)
    · obtain ⟨hwell, hkept, hdependencies⟩ := legacy_raised h.wellFormed hlegacy
      refine ⟨⟨hwell, fun x hx => ?_⟩, hkept, fun f hf _ d hd => ?_⟩
      · exact supports_mono hkept (h.supported x (hneeded x hx))
      · rw [hdependencies f hf] at hd
        simp at hd
    · refine upgraded_of_extended h (extended_none h.wellFormed) ?_
      exact fun x hx => .inl (hneeded x hx)

/-- New columns declare, and properties turn on, nothing the operation fails to check for. -/
def Declares (py : Python) (state : TableState) : Event → Prop
  | .addColumns newFields _ => ∀ f ∈ rawDeclared newFields, supports state.protocol f
  | .mergeSchema data _ =>
    ∀ f ∈ newlyDeclared py state.schema.fields data, supports state.protocol f
  | .setProperties properties => KeepsRowTracking py state properties
  | _ => True

theorem upgraded {e : Event} (h : Covered py state) (hdeclares : Declares py state e)
    (hnext : advance py state e = some state') : Upgraded py state state' := by
  obtain ⟨change, hact, rfl⟩ := advance_ok hnext
  cases e with
  | addColumns newFields uuid => exact upgraded_addColumns h hdeclares hact
  | mergeSchema data uuid => exact upgraded_mergeSchema h hdeclares hact
  | renameColumn old new => exact upgraded_renameColumn h hact
  | dropColumn column => exact upgraded_dropColumn h hact
  | alterColumnType column new => exact upgraded_alterColumnType h hact
  | addConstraints constraints => exact upgraded_addConstraints h hact
  | setProperties properties => exact upgraded_setProperties h hdeclares hact
  | addFeature feature => exact upgraded_addFeature h hact
  | unsetProperties keys ifExists => exact upgraded_unsetProperties h hact
  | clusterBy columns => exact upgraded_clusterBy h hact

/-- The protocol covers the metadata throughout a run, each change keeping what was supported
and bringing every dependency of what it adds. -/
theorem protocol_covers {start : TableState} (hstart : Covered py start)
    (hrun : Run (advance py) (Declares py) start state) :
    Covered py state ∧
      (∀ e state', Declares py state e → advance py state e = some state' →
        Upgraded py state state') ∧
      ∀ p p' names, WellFormed p → withFeatures p names = some p' →
        withFeatures p' names = none := by
  have hcovered : Covered py state :=
    hrun.invariant hstart fun s t e hs hok hnext => (upgraded hs hok hnext).covered
  refine ⟨hcovered, ?_, ?_⟩
  · intro e state' hdeclares hnext
    exact upgraded hcovered hdeclares hnext
  · intro p p' names hp h
    exact withFeatures_idem hp h

end

def plainState : TableState where
  version := 0
  protocol := ⟨1, 2, none, none⟩
  metadata := ⟨.struct [⟨"a", .primitive "long", true, []⟩], [], []⟩
  clustering := none

theorem plainState_covered : Covered ascii plainState :=
  ⟨by decide +kernel, by decide +kernel⟩

def addTime : Event := .addColumns [⟨some "t", some (.text "timestamp_ntz"), none, []⟩] ascii.str

def enableVectors : Event := .setProperties [("delta.enableDeletionVectors", .text "TRUE")]

theorem protocol_covers_plain :
    ∃ state, Run (advance ascii) (Declares ascii) plainState state ∧ state.version = 2 ∧
      "timestampNtz" ∈ supportedFeatures state.protocol ∧
      "deletionVectors" ∈ supportedFeatures state.protocol ∧ Covered ascii state := by
  have hevents : ((advance ascii plainState addTime).any fun s =>
      (advance ascii s enableVectors).any fun t => t.version = 2 &&
        "timestampNtz" ∈ supportedFeatures t.protocol &&
        "deletionVectors" ∈ supportedFeatures t.protocol) = true := by
    decide +kernel
  obtain ⟨s, hs, hlast⟩ := (Option.any_eq_true _ _).mp hevents
  obtain ⟨t, ht, hlast⟩ := (Option.any_eq_true _ _).mp hlast
  simp only [Bool.and_eq_true, decide_eq_true_eq] at hlast
  have hadd : Declares ascii plainState addTime := by
    have hnone : rawDeclared [⟨some "t", some (.text "timestamp_ntz"), none, []⟩] = [] := by
      decide
    intro f hf
    rw [hnone] at hf
    cases hf
  have henable : Declares ascii s enableVectors := by
    have hother : canonicalKey ascii "delta.enableDeletionVectors" ≠ rowTrackingKey := by
      decide +kernel
    intro p hp hkey
    rw [mem_singleton] at hp
    subst hp
    exact absurd hkey hother
  have hrun : Run (advance ascii) (Declares ascii) plainState t :=
    (Run.refl.step hadd hs).step henable ht
  exact ⟨t, hrun, hlast.1.1, hlast.1.2, hlast.2, (protocol_covers plainState_covered hrun).1⟩

/-- A struct column whose nested field is generated. -/
def addGenerated : Event :=
  .addColumns [⟨some "s", some (.struct (some [⟨some "n", some (.text "long"), none,
    [(generation, .str "1")]⟩])), none, []⟩] ascii.str

/-- A covered table that a nested generated column leaves uncovered. -/
theorem nested_uncovered :
    ¬ ∀ (py : Python) (state state' : TableState) (e : Event), Covered py state →
      advance py state e = some state' → Covered py state' := by
  intro hclaim
  have hadd : ((advance ascii plainState addGenerated).any fun s =>
      "generatedColumns" ∈ neededFeatures ascii s.metadata &&
        !decide (supports s.protocol "generatedColumns")) = true := by
    decide +kernel
  obtain ⟨s, hs, hlast⟩ := (Option.any_eq_true _ _).mp hadd
  simp only [Bool.and_eq_true, decide_eq_true_eq, Bool.not_eq_true', decide_eq_false_iff_not]
    at hlast
  have hcovered := hclaim ascii plainState s addGenerated plainState_covered hs
  exact hlast.2 (hcovered.supported _ hlast.1)

end DeltaSwamp.Metadata
