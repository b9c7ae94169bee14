import DeltaSwamp.Metadata.Declared
import DeltaSwamp.Metadata.Evolution

/-!
# Protocols that cover their metadata

What a schema and the properties need, and when an accepted change leaves a
protocol that supports it all.
-/

namespace DeltaSwamp.Metadata

open List

def rowTrackingKey : String := "delta.enableRowTracking"

def policyKey : String := "delta.checkpointPolicy"

/-- Properties whose true value needs a feature: those an operation turns on, and others. -/
def enablingKeys : List (String × String) := enabling ++
  [(rowTrackingKey, "rowTracking"), ("delta.enableIcebergCompatV1", "icebergCompatV1"),
    ("delta.enableIcebergCompatV2", "icebergCompatV2"),
    ("delta.enableIcebergCompatV3", "icebergCompatV3"),
    ("delta.enableIcebergWriterCompatV1", "icebergWriterCompatV1"),
    ("delta.enableIcebergWriterCompatV3", "icebergWriterCompatV3"),
    ("delta.enableVariantShredding", "variantShredding")]

section
variable (py : Python)

def setsTrue (config : Config) (key : String) : Bool :=
  (config.get key).any fun value => py.lower value = "true"

def policyV2 (config : Config) : Bool :=
  (config.get policyKey).any fun value => py.lower value = "v2"

/-- What true-valued properties, the checkpoint policy and the column-mapping mode need. -/
def configFeatures (config : Config) : List String :=
  (enablingKeys.filter fun e => setsTrue py config e.1).map Prod.snd ++
    (if policyV2 py config then ["v2Checkpoint"] else []) ++
    (if mapped py config then ["columnMapping"] else [])

/-- What the metadata needs of its protocol. -/
def neededFeatures (metadata : TableMetadata) : List String :=
  metadata.schema.typeFeatures py.lower ++ columnFeatures metadata.schema ++
    configFeatures py metadata.configuration

/-- A well-formed protocol that supports what the metadata needs. -/
structure Covered (state : TableState) : Prop where
  wellFormed : WellFormed state.protocol
  supported : ∀ f ∈ neededFeatures py state.metadata, supports state.protocol f

/-- What a change keeps and adds of a protocol that covers its metadata. -/
structure Upgraded (state state' : TableState) : Prop where
  covered : Covered py state'
  kept : supportedFeatures state.protocol ⊆ supportedFeatures state'.protocol
  dependencies : ∀ f ∈ supportedFeatures state'.protocol, f ∉ supportedFeatures state.protocol →
    ∀ d ∈ dependencyGraph.next f, supports state'.protocol d

end

section
variable {py : Python} {state state' : TableState} {change : Change}

theorem upgraded_of_extended {names : List String} (h : Covered py state)
    (hext : Extended state.protocol state'.protocol names)
    (hneeded : ∀ x ∈ neededFeatures py state'.metadata,
      x ∈ neededFeatures py state.metadata ∨ supports state.protocol x ∨ x ∈ names) :
    Upgraded py state state' := by
  refine ⟨⟨hext.wellFormed, ?_⟩, hext.kept, fun f hf hnew => hext.dependencies hf hnew⟩
  intro x hx
  rcases hneeded x hx with hold | hsupported | hname
  · exact supports_mono hext.kept (h.supported x hold)
  · exact supports_mono hext.kept hsupported
  · exact hext.supported x (names_subset_withDependencies names hname)

/-- The keys whose values need features. -/
def watchedKeys : List String := enablingKeys.map Prod.fst ++ [policyKey, cmMode]

variable {config : Config}

theorem configFeatures_subset {config' : Config}
    (h : ∀ key ∈ watchedKeys, config'.get key = config.get key ∨
      (config'.get key = none ∧ key ≠ cmMode)) :
    configFeatures py config' ⊆ configFeatures py config := by
  have hany : ∀ key ∈ watchedKeys, ∀ p : String → Bool, (config'.get key).any p = true →
      (config.get key).any p = true := by
    intro key hkey p hp
    rcases h key hkey with hsame | ⟨hnone, -⟩
    · rw [← hsame]
      exact hp
    · rw [hnone] at hp
      cases hp
  have hmode : config'.get cmMode = config.get cmMode := by
    rcases h cmMode (by decide) with hsame | ⟨-, hne⟩
    · exact hsame
    · exact absurd rfl hne
  intro x hx
  simp only [configFeatures, mem_append, mem_map, mem_filter] at hx ⊢
  rcases hx with (⟨e, ⟨he, htrue⟩, rfl⟩ | hx) | hx
  · refine .inl (.inl ⟨e, ⟨he, ?_⟩, rfl⟩)
    apply hany e.1 _ _ htrue
    exact mem_append_left _ (mem_map_of_mem he)
  · by_cases hpolicy : policyV2 py config' = true
    · rw [if_pos hpolicy] at hx
      have hold : policyV2 py config = true := hany policyKey (by decide) _ hpolicy
      rw [if_pos hold]
      exact .inl (.inr hx)
    · rw [if_neg hpolicy] at hx
      simp at hx
  · rw [mapped_of_get hmode] at hx
    exact .inr hx

theorem configFeatures_of_get {config' : Config}
    (h : ∀ key ∈ watchedKeys, config'.get key = config.get key) :
    configFeatures py config' ⊆ configFeatures py config :=
  configFeatures_subset fun key hkey => .inl (h key hkey)

theorem watched_set {key value : String} (hkey : key ∉ watchedKeys) :
    ∀ k ∈ watchedKeys, (config.set key value).get k = config.get k := by
  intro k hk
  rw [Config.get_set, if_neg]
  rintro rfl
  exact hkey hk

variable {t : DataType} {x : String}

theorem mem_typeFeatures :
    x ∈ t.typeFeatures py.lower ↔ x ∈ t.markNames (typeMark py.lower) noColumnMark := by
  rw [(typeFeatures_eq py.lower).1]

theorem mem_typeFeaturesOf {fs : List Field} :
    x ∈ typeFeaturesOf py.lower fs ↔
      x ∈ (DataType.struct fs).markNames (typeMark py.lower) noColumnMark := by
  rw [(typeFeatures_eq py.lower).2 fs 0]
  rfl

theorem mem_columnFeatures : x ∈ columnFeatures t ↔ x ∈ t.markNames noTypeMark columnMark := by
  rw [columnFeatures_eq]

theorem markNames_fields {prim : String → List String} {own : Fields → List String}
    (h : x ∈ (DataType.struct t.fields).markNames prim own) : x ∈ t.markNames prim own := by
  cases t with
  | struct fields => exact h
  | _ =>
    obtain ⟨f, hf, -⟩ := mem_markNames_struct.mp h
    simp [DataType.fields] at hf

theorem protocolFor_extended {p : Protocol} (hp : WellFormed p) (names : List String) :
    Extended p ((protocolFor p names).getD p) names := by
  unfold protocolFor
  split_ifs with hempty
  · rw [Option.getD_none]
    apply extended_self hp
    subst hempty
    intro f hf
    rw [withDependencies, Worklist.close] at hf
    simp at hf
  · exact withFeatures_extended hp names

theorem extended_none {p : Protocol} (hp : WellFormed p) : Extended p p [] := by
  apply extended_self hp
  intro f hf
  rw [withDependencies, Worklist.close] at hf
  simp at hf

theorem upgraded_nothing (h : Covered py state) : Upgraded py state (state.apply .nothing) := by
  exact upgraded_of_extended h (extended_none h.wellFormed) fun x hx => .inl hx

theorem upgraded_of_schema (names : List String) (h : Covered py state)
    (hext : Extended state.protocol (state.apply change).protocol names)
    (htypes : ∀ x ∈ (state.apply change).schema.markNames (typeMark py.lower) noColumnMark,
      x ∈ state.schema.markNames (typeMark py.lower) noColumnMark ∨ x ∈ names)
    (hcolumns : ∀ x ∈ (state.apply change).schema.markNames noTypeMark columnMark,
      x ∈ state.schema.markNames noTypeMark columnMark ∨ supports state.protocol x)
    (hconfig : ∀ x ∈ configFeatures py (state.apply change).configuration,
      x ∈ configFeatures py state.configuration ∨ supports state.protocol x ∨ x ∈ names) :
    Upgraded py state (state.apply change) := by
  apply upgraded_of_extended h hext
  intro x hx
  simp only [neededFeatures, mem_append, mem_typeFeatures, mem_columnFeatures] at hx ⊢
  rcases hx with (hx | hx) | hx
  · rcases htypes x hx with hold | hname
    · exact .inl (.inl (.inl hold))
    · exact .inr (.inr hname)
  · rcases hcolumns x hx with hold | hsupported
    · exact .inl (.inl (.inr hold))
    · exact .inr (.inl hsupported)
  · rcases hconfig x hx with hold | hnew
    · exact .inl (.inr hold)
    · exact .inr hnew

theorem upgraded_addColumns {newFields : List RawField} {uuid : Int → String}
    (h : Covered py state)
    (hdeclared : ∀ f ∈ rawDeclared newFields, supports state.protocol f)
    (hact : addColumns py uuid state newFields = .ok change) :
    Upgraded py state (state.apply change) := by
  rcases addColumns_ok hact with rfl | ⟨added, -, hadded, -, hprotocol, -, hmetadata⟩
  · exact upgraded_nothing h
  · have hnew : ∀ x ∈ (DataType.struct added).markNames noTypeMark columnMark,
        supports state.protocol x := by
      intro x hx
      obtain ⟨f, hf, hx⟩ := mem_markNames_struct.mp hx
      obtain ⟨raw, hraw, hf⟩ := (Result.mem_of_mapM_ok hadded f).mp hf
      exact hdeclared x (mem_rawDeclared hraw (newColumn_declared hf hx))
    -- The columns added, before or after they are assigned ids.
    have hschema : ∃ fs, (state.apply change).schema = .struct (state.schema.fields ++ fs) ∧
        ∀ prim own, Blind own → ∀ x ∈ (DataType.struct fs).markNames prim own,
          x ∈ (DataType.struct added).markNames prim own := by
      rcases hmetadata with ⟨-, hm⟩ | ⟨-, highest, -, hm⟩
      · exact ⟨added, schema_apply hm, fun _ _ _ x hx => hx⟩
      · exact ⟨(assignIds (drawn uuid) added (highest + 1)).1, schema_apply hm,
          fun _ _ hown => (markNames_assign hown (drawn uuid)).2 added (highest + 1)⟩
    obtain ⟨fs, hschema, hfs⟩ := hschema
    have hsplit : ∀ prim own, Blind own → ∀ x ∈ (state.apply change).schema.markNames prim own,
        x ∈ state.schema.markNames prim own ∨ x ∈ (DataType.struct added).markNames prim own := by
      intro prim own hown x hx
      rw [hschema] at hx
      obtain ⟨f, hf, hmark⟩ := mem_markNames_struct.mp hx
      rcases mem_append.mp hf with hf | hf
      · exact .inl (markNames_fields (mem_markNames_struct.mpr ⟨f, hf, hmark⟩))
      · exact .inr (hfs prim own hown x (mem_markNames_struct.mpr ⟨f, hf, hmark⟩))
    have hext : Extended state.protocol (state.apply change).protocol
        (typeFeaturesOf py.lower added) := by
      rw [TableState.apply, hprotocol]
      exact protocolFor_extended h.wellFormed _
    apply upgraded_of_schema _ h hext
    · intro x hx
      exact (hsplit _ _ blind_noColumnMark x hx).imp_right mem_typeFeaturesOf.mpr
    · intro x hx
      exact (hsplit _ _ blind_columnMark x hx).imp_right (hnew x)
    · intro x hx
      left
      rcases hmetadata with ⟨-, hm⟩ | ⟨-, highest, -, hm⟩
      · rw [configuration_apply hm] at hx
        exact hx
      · rw [configuration_apply hm] at hx
        exact configFeatures_of_get (watched_set (by decide)) hx

theorem mem_fieldsAt {schema : DataType} {added : List Position} {p : Position} (hp : p ∈ added)
    {f : Field} (hf : schema.fieldAt p = some f) : f ∈ fieldsAt schema added :=
  mem_filterMap.mpr ⟨p, hp, hf⟩

theorem Grown.fieldAt {u : DataType} {ps : List Position} {ws : List String}
    (h : Grown py state t u ps ws) {p : Position} (hp : p ∈ ps) : ∃ f, u.fieldAt p = some f := by
  obtain ⟨s, hs, rfl⟩ := h.kept.there p hp
  obtain ⟨l, hl, rfl⟩ := mem_map.mp hs
  apply Option.isSome_iff_exists.mp
  exact (fieldAt_isSome_iff u ⟨none, []⟩ l.position).mpr ⟨l, hl, rfl⟩

/-- A merge leaves the protocol with every feature its columns declare. -/
theorem upgraded_mergeSchema {data : List ArrowField} {uuid : Int → String}
    (h : Covered py state)
    (hdeclared : ∀ f ∈ newlyDeclared py state.schema.fields data, supports state.protocol f)
    (hact : mergeSchema py uuid state data = .ok change) :
    Upgraded py state (state.apply change) := by
  obtain ⟨m, hm, ⟨-, -, rfl⟩ | ⟨-, hprotocol, -, hmetadata⟩⟩ := mergeSchema_ok hact
  · exact upgraded_nothing h
  · have hgrown := merge_grown.2 data _ _ _ m hm
    have hschema : ∀ prim own, Blind own → ∀ x ∈ (state.apply change).schema.markNames prim own,
        x ∈ (DataType.struct m.merged).markNames prim own := by
      intro prim own hown x hx
      rcases hmetadata with ⟨-, hm⟩ | ⟨-, highest, -, hm⟩
      · rw [schema_apply hm] at hx
        exact hx
      · rw [schema_apply hm] at hx
        exact markNames_assignAt hown hx
    have hext : Extended state.protocol (state.apply change).protocol (mergedFeatures py m) := by
      rw [TableState.apply, hprotocol]
      exact protocolFor_extended h.wellFormed _
    apply upgraded_of_schema _ h hext
    · intro x hx
      obtain ⟨s, hs, rfl⟩ := mem_map.mp (hschema _ _ blind_noColumnMark x hx)
      rw [mergedFeatures, mem_append, mem_append]
      rcases hgrown.marks blind_noColumnMark hs with ⟨p, hp, hprefix⟩ | hold | ⟨w, hw, hprim⟩
      · right
        left
        right
        obtain ⟨f, hf⟩ := hgrown.fieldAt hp
        apply mem_typeFeaturesOf.mpr
        exact mem_markNames_struct.mpr ⟨f, mem_fieldsAt hp hf, mark_below hf hs hprefix⟩
      · exact .inl (markNames_fields (mem_map_of_mem hold))
      · right
        right
        apply mem_flatMap.mpr
        exact ⟨w, hw, mem_typeFeatures.mpr (mem_markNames_primitive.mpr hprim)⟩
    · intro x hx
      rcases merge_declared.2 data _ _ _ m hm x (hschema _ _ blind_columnMark x hx) with hold | hnew
      · exact .inl (markNames_fields hold)
      · exact .inr (hdeclared x hnew)
    · intro x hx
      left
      rcases hmetadata with ⟨-, hm⟩ | ⟨-, highest, -, hm⟩
      · rw [configuration_apply hm] at hx
        exact hx
      · rw [configuration_apply hm] at hx
        exact configFeatures_of_get (watched_set (by decide)) hx

theorem upgraded_alterColumnType {column new : String} (h : Covered py state)
    (hact : alterColumnType py state column new = .ok change) :
    Upgraded py state (state.apply change) := by
  rcases alterColumnType_ok hact with rfl | ⟨path, found, old, -, hfound, htype, -, rfl⟩
  · exact upgraded_nothing h
  · have hat := fieldAt_of_fields (find_ok hfound).1
    apply upgraded_of_schema ("typeWidening" ::
      (DataType.primitive (normaliseType py new)).typeFeatures py.lower) h
    · exact withFeatures_extended h.wellFormed _
    · intro x hx
      rcases markNames_update hx with hold | ⟨f, -, f', hf', hnew⟩
      · exact .inl hold
      · rw [mem_singleton] at hf'
        subst hf'
        right
        apply mem_cons_of_mem
        rcases mem_append.mp hnew with hnew | hnew
        · exact absurd hnew not_mem_nil
        · exact mem_typeFeatures.mpr hnew
    · intro x hx
      left
      rcases markNames_update hx with hold | ⟨f, hf, f', hf', hnew⟩
      · exact hold
      · rw [mem_singleton] at hf'
        subst hf'
        rcases mem_append.mp hnew with hnew | hnew
        · have hmark := blind_columnMark _ _ _ (.inr (.inr rfl)) hnew
          exact markNames_fieldAt hf (mem_append_left _ hmark)
        · exact absurd hnew not_mem_primitive
    · exact fun x hx => .inl hx

theorem upgraded_renameColumn {old new : String} (h : Covered py state)
    (hact : renameColumn py state old new = .ok change) :
    Upgraded py state (state.apply change) := by
  obtain ⟨-, path, found, parts, -, hfound, -, -, -, ⟨-, rfl⟩ | ⟨-, -, rfl⟩⟩ := renameColumn_ok hact
  · exact upgraded_nothing h
  · have hschema : ∀ prim own x, x ∈ (state.schema.update
        (fun f => [{ f with name := parts.getLastD "" }]) found.position).markNames prim own →
        x ∈ state.schema.markNames prim own := by
      intro prim own x hx
      rcases markNames_update hx with hold | ⟨f, hf, f', hf', hnew⟩
      · exact hold
      · rw [mem_singleton] at hf'
        subst hf'
        exact markNames_fieldAt hf hnew
    apply upgraded_of_schema [] h
    · exact extended_none h.wellFormed
    · exact fun x hx => .inl (hschema _ _ x hx)
    · exact fun x hx => .inl (hschema _ _ x hx)
    · exact fun x hx => .inl hx

theorem upgraded_dropColumn {column : String} (h : Covered py state)
    (hact : dropColumn py state column = .ok change) :
    Upgraded py state (state.apply change) := by
  obtain ⟨-, path, found, -, -, -, -, -, rfl⟩ := dropColumn_ok hact
  have hschema : ∀ prim own x,
      x ∈ (state.schema.update (fun _ => []) found.position).markNames prim own →
      x ∈ state.schema.markNames prim own := by
    intro prim own x hx
    rcases markNames_update hx with hold | ⟨f, -, f', hf', -⟩
    · exact hold
    · simp at hf'
  apply upgraded_of_schema [] h
  · exact extended_none h.wellFormed
  · exact fun x hx => .inl (hschema _ _ x hx)
  · exact fun x hx => .inl (hschema _ _ x hx)
  · exact fun x hx => .inl hx

end

end DeltaSwamp.Metadata
