import DeltaSwamp.Metadata.History

/-!
# Where the fields are after a change

Once columns are mapped, what each operation does to the places of a schema:
fields dropped, renamed or left, and new ones numbered past the highest id.
-/

namespace DeltaSwamp.Metadata

open List

section
variable {py : Python} {state state' : TableState}

theorem le_foldlM_max {fs : List Field} {start highest : Int}
    (h : fs.foldlM (fun highest f => match f.id with
      | none | some .null => (.ok highest : Except Refused Int)
      | some value => (py.int value).elim (.error .badNumber) fun n => .ok (max highest n)) start =
        .ok highest) : start ≤ highest := by
  induction fs generalizing start with
  | nil => exact (Result.pure_eq_ok_iff.mp h).le
  | cons f fs ih =>
    rw [foldlM_cons] at h
    obtain ⟨next, hnext, h⟩ := Result.bind_eq_ok_iff.mp h
    apply le_trans _ (ih h)
    split at hnext
    · cases hnext
      exact le_refl _
    · cases hnext
      exact le_refl _
    · obtain ⟨n, -, hn⟩ := Result.elim_error_iff.mp hnext
      cases hn
      exact le_max_left _ _

theorem recorded_le {top highest : Int} (htop : state.configuration.get cmMax = some (py.str top))
    (h : maxColumnId py state = .ok highest) : top ≤ highest := by
  unfold maxColumnId at h
  have hrecorded : (some (py.str top)).filter (· ≠ "") = some (py.str top) := by
    simp [Option.filter, py.str_ne]
  rw [htop, hrecorded] at h
  obtain ⟨start, hstart, h⟩ := Result.bind_eq_ok_iff.mp h
  rw [py.int_str, Option.elim_some] at hstart
  cases hstart
  exact le_foldlM_max h

/-- The texts an event draws. -/
def Event.draws : Event → Option (Int → String)
  | .addColumns _ uuid | .mergeSchema _ uuid => some uuid
  | _ => none

/-- What an event does to a schema whose columns are mapped: its fields stay, each where it is
followed to, but for those that are gone, and `new` ones are numbered. -/
structure Evolved (py : Python) (state : TableState) (e : Event) (state' : TableState)
    (new : List Label) : Prop where
  places : state'.schema.places.Perm
    ((state.schema.places.filter fun l => decide (l ∉ gone py state e)).map (follow py state e) ++
      new)
  mapped : mapped py state'.configuration = true
  numbered : (new = [] ∧ state'.configuration.get cmMax = state.configuration.get cmMax) ∨
    ∃ uuid highest next, e.draws = some uuid ∧ maxColumnId py state = .ok highest ∧
      Numbered (drawn uuid) (highest + 1) next new ∧
      state'.configuration.get cmMax = some (py.str (next - 1))

variable {e : Event}

theorem Evolved.same (hgone : gone py state e = [])
    (hfollow : ∀ l ∈ state.schema.places, follow py state e l = l)
    (hplaces : state'.schema.places = state.schema.places)
    (hmax : state'.configuration.get cmMax = state.configuration.get cmMax)
    (hmapped : Metadata.mapped py state'.configuration = true) : Evolved py state e state' [] := by
  refine ⟨?_, hmapped, .inl ⟨rfl, hmax⟩⟩
  have hid : state.schema.places.map (follow py state e) = state.schema.places :=
    (map_congr_left hfollow).trans (map_id' _)
  simp [hgone, hplaces, hid]

theorem advance_ok (h : advance py state e = some state') :
    ∃ change, act py state e = .ok change ∧ state' = state.apply change := by
  unfold advance at h
  split at h
  · rename_i change hact
    cases h
    exact ⟨change, hact, rfl⟩
  · cases h

theorem Evolved.nothing (hgone : gone py state e = [])
    (hfollow : ∀ l ∈ state.schema.places, follow py state e l = l)
    (hmapped : Metadata.mapped py state.configuration = true) :
    Evolved py state e (state.apply .nothing) [] :=
  .same hgone hfollow rfl rfl hmapped

theorem not_isPrefixOf {p q : Position} (h : ¬ p <+: q) : p.isPrefixOf q = false := by
  rw [Bool.eq_false_iff, Ne, isPrefixOf_iff_prefix]
  exact h

theorem evolved_dropColumn {column : String}
    (h : advance py state (.dropColumn column) = some state') :
    ∃ new, Evolved py state (.dropColumn column) state' new := by
  obtain ⟨change, hact, rfl⟩ := advance_ok h
  obtain ⟨hmapped, path, found, hpath, hfound, -, -, -, rfl⟩ := dropColumn_ok hact
  have htarget := target_eq hpath hfound
  obtain ⟨before, after, inner, hsplit⟩ :=
    exists_split_labels (fieldAt_of_fields (find_ok hfound).1) ⟨none, []⟩
  apply Exists.intro []
  refine ⟨?_, hmapped, .inl ⟨rfl, rfl⟩⟩
  have hstays : (state.schema.places.filter fun l =>
      decide (l ∉ gone py state (.dropColumn column))) = before ++ after := by
    have hgone : ∀ l ∈ state.schema.places,
        decide (l ∉ gone py state (.dropColumn column)) =
          !found.position.isPrefixOf l.position := by
      intro l hl
      by_cases hprefix : found.position <+: l.position
      · simp [gone, htarget, hl, isPrefixOf_iff_prefix.mpr hprefix]
      · simp [gone, htarget, not_isPrefixOf hprefix]
    have hkept : ∀ ls : List Label, (∀ l ∈ ls, l ∈ before ++ after) →
        ls.filter (fun l => !found.position.isPrefixOf l.position) = ls := by
      intro ls hls
      rw [filter_eq_self]
      intro l hl
      rw [not_isPrefixOf (hsplit.outside l (hls l hl))]
      rfl
    have hnone : (((found.target.labels inner).map (Label.under found.position)).filter
        fun l => !found.position.isPrefixOf l.position) = [] := by
      rw [filter_eq_nil_iff]
      intro l hl
      obtain ⟨l', -, rfl⟩ := mem_map.mp hl
      simp [Label.under]
    rw [filter_congr hgone, DataType.places, hsplit.labels, filter_append,
      filter_append, hnone, hkept before fun l hl => mem_append_left _ hl,
      hkept after fun l hl => mem_append_right _ hl, append_nil]
  have hfollow : follow py state (.dropColumn column) = Label.moved found.position := by
    funext l
    simp [follow, htarget]
  have hplaces : (state.schema.update (fun _ => []) found.position).places =
      (before ++ after).map (.moved found.position) := hsplit.remove _ rfl
  rw [hstays, hfollow, append_nil, ← hplaces]
  exact List.Perm.refl _

/-- What a rename does to a schema whose columns are mapped. -/
theorem evolved_renameColumn {old new : String}
    (h : advance py state (.renameColumn old new) = some state') :
    ∃ new', Evolved py state (.renameColumn old new) state' new' := by
  obtain ⟨change, hact, rfl⟩ := advance_ok h
  obtain ⟨hmapped, path, found, parts, hpath, hfound, hparts, -, -, hcases⟩ := renameColumn_ok hact
  have htarget := target_eq hpath hfound
  obtain ⟨before, after, inner, hsplit⟩ :=
    exists_split_labels (fieldAt_of_fields (find_ok hfound).1) ⟨none, []⟩
  have hfollow : ∀ l, follow py state (.renameColumn old new) l =
      if l.position = found.position then { l with name := parts.getLastD "" } else l := by
    intro l
    simp [follow, htarget, hparts]
  -- The labels with the renamed field's name replaced.
  have hlabels : state.schema.places.map (follow py state (.renameColumn old new)) =
      before ++ ((FieldOf.labels { found.target with name := parts.getLastD "" } inner).map
        (.under found.position)) ++ after := by
    have hkept : ∀ ls : List Label, (∀ l ∈ ls, l ∈ before ++ after) →
        ls.map (follow py state (.renameColumn old new)) = ls := by
      intro ls hls
      refine (map_congr_left fun l hl => ?_).trans (map_id' ls)
      rw [hfollow, if_neg]
      intro heq
      exact hsplit.outside l (hls l hl) (heq ▸ prefix_refl _)
    have hinside : ∀ l ∈ found.target.type.labels ⟨found.target.id, []⟩,
        (follow py state (.renameColumn old new) ∘ Label.under found.position) l =
          l.under found.position := by
      intro l hl
      rw [Function.comp_apply, hfollow, if_neg]
      intro heq
      exact position_ne_nil.1 _ _ l hl (append_right_eq_self.mp heq)
    rw [DataType.places, hsplit.labels, map_append, map_append,
      hkept before fun l hl => mem_append_left _ hl,
      hkept after fun l hl => mem_append_right _ hl, FieldOf.labels, FieldOf.labels,
      map_cons, map_cons, map_map,
      map_congr_left fun l hl => hinside l hl, map_cons]
    congr 3
    rw [hfollow, if_pos (by simp [Label.under, FieldOf.label])]
    rfl
  apply Exists.intro []
  refine ⟨?_, ?_, .inl ⟨rfl, ?_⟩⟩
  · have hall : (state.schema.places.filter fun l =>
        decide (l ∉ gone py state (.renameColumn old new))) = state.schema.places := by
      simp [gone]
    rw [hall, append_nil, hlabels]
    rcases hcases with ⟨hsame, rfl⟩ | ⟨-, -, rfl⟩
    · have htargetSame : ({ found.target with name := parts.getLastD "" } : Field) =
          found.target := by
        rw [hsame]
      rw [htargetSame, ← hsplit.labels]
      exact List.Perm.refl _
    · have hplaces := hsplit.update
        (fun f => [{ f with name := parts.getLastD "" }]) _ rfl
      rw [← hplaces]
      exact List.Perm.refl _
  · rcases hcases with ⟨-, rfl⟩ | ⟨-, -, rfl⟩
    · exact hmapped
    · exact hmapped
  · rcases hcases with ⟨-, rfl⟩ | ⟨-, -, rfl⟩
    · rfl
    · rfl

variable {config : Config}

theorem mapped_of_get {config' : Config} (h : config'.get cmMode = config.get cmMode) :
    Metadata.mapped py config' =
      Metadata.mapped py config := by
  rw [Metadata.mapped, Metadata.mapped, columnMappingMode, columnMappingMode, h]

theorem evolved_alterColumnType {column new : String}
    (hmapped : Metadata.mapped py state.configuration = true)
    (h : advance py state (.alterColumnType column new) = some state') :
    ∃ new', Evolved py state (.alterColumnType column new) state' new' := by
  obtain ⟨change, hact, rfl⟩ := advance_ok h
  apply Exists.intro []
  rcases alterColumnType_ok hact with rfl | ⟨path, found, old, hpath, hfound, htype, -, rfl⟩
  · exact .nothing rfl (fun _ _ => rfl) hmapped
  · obtain ⟨before, after, inner, hsplit⟩ :=
      exists_split_labels (fieldAt_of_fields (find_ok hfound).1) ⟨none, []⟩
    apply Evolved.same rfl (fun _ _ => rfl)
    · have hupdate := hsplit.update (fun f => [{ f with
        type := .primitive (normaliseType py new)
        metadata := f.recordChange old (normaliseType py new) }]) _ rfl
      rw [labels_widened htype, ← hsplit.labels] at hupdate
      exact hupdate
    · rfl
    · exact hmapped

/-- What the loop of `set_properties` has done to the mapping: nothing, or it was enabled. -/
def MappingSet (py : Python) (state : TableState) (s : Settings) : Prop :=
  (s.schema = none ∧ columnMappingMode py s.configuration = state.columnMappingMode py ∧
      (Metadata.mapped py state.configuration = true →
        s.configuration.get cmMax = state.configuration.get cmMax)) ∨
    (s.schema = some (.struct (assignIds logical state.schema.fields 1).1) ∧
      state.columnMappingMode py = "none" ∧ columnMappingMode py s.configuration = "name" ∧
      s.configuration.get cmMax =
        some (py.str ((assignIds logical state.schema.fields 1).2 - 1)))

variable {s s' : Settings}

theorem MappingSet.of_get (h : MappingSet py state s) (hschema : s'.schema = s.schema)
    (hmode : s'.configuration.get cmMode = s.configuration.get cmMode)
    (hmax : s'.configuration.get cmMax = s.configuration.get cmMax) : MappingSet py state s' := by
  unfold MappingSet columnMappingMode at h ⊢
  rw [hschema, hmode, hmax]
  exact h

theorem mapped_ne_none (h : Metadata.mapped py config = true) :
    columnMappingMode py config ≠ "none" := by
  intro hnone
  simp [Metadata.mapped, hnone] at h

theorem mappingSet_enable {mode value : String} {r : Option DataType × Config}
    {features : List String} (h : MappingSet py state s)
    (hr : enableColumnMapping py state mode s.configuration = .ok r)
    (hvalue : py.lower value = mode) :
    MappingSet py state ⟨r.2.set cmMode value, features, r.1⟩ := by
  have hmode : ∀ config : Config, columnMappingMode py (config.set cmMode value) = mode := by
    intro config
    rw [columnMappingMode, Config.get_set, if_pos rfl]
    exact hvalue
  have hmax : ∀ config : Config, (config.set cmMode value).get cmMax = config.get cmMax := by
    intro config
    rw [Config.get_set, if_neg (by decide)]
  unfold enableColumnMapping at hr
  by_cases hcurrent : mode = state.columnMappingMode py
  · simp only [if_pos hcurrent] at hr
    cases hr
    left
    refine ⟨rfl, (hmode _).trans hcurrent, ?_⟩
    intro hmapped
    rw [hmax]
    rcases h with ⟨-, -, hkept⟩ | ⟨-, hnone, -⟩
    · exact hkept hmapped
    · exact absurd hnone (mapped_ne_none hmapped)
  · simp only [if_neg hcurrent] at hr
    split_ifs at hr with hbad hchange
    cases hr
    right
    push Not at hchange
    refine ⟨rfl, hchange.1, (hmode _).trans hchange.2, ?_⟩
    rw [hmax, Config.get_set, if_pos rfl]
    rfl

variable {key : String}

theorem setValue_ok {raw : RawValue} (h : setValue py state key raw s = .ok s') :
    ¬ (key = "delta.enableRowTracking" ∧ py.lower raw.str = "true") ∧
    (startsWith key "delta." = true → key ∈ knownKeys ∨ key = "delta.enableRowTracking") ∧
    ∃ value mapping, normaliseValue py key raw state.schema = .ok value ∧
      (if key = cmMode then enableColumnMapping py state (py.lower value) s.configuration
        else .ok (s.schema, s.configuration)) = .ok mapping ∧
      s' = ⟨(if (key = inCommit && py.lower value = "true" &&
            py.lower ((state.configuration.get key).getD "false") ≠ "true") = true then
          (mapping.2.set "delta.inCommitTimestampEnablementVersion"
            (py.str (state.version + 1))).set "delta.inCommitTimestampEnablementTimestamp" "__ICT__"
        else mapping.2).set key value,
        s.features ++ (if py.lower value = "true" then (enabling.lookup key).toList else []) ++
          (if (key = "delta.checkpointPolicy" && py.lower value = "v2") = true then
            ["v2Checkpoint"] else []) ++
          (if (key = cmMode && py.lower value ≠ "none") = true then ["columnMapping"] else []),
        mapping.1⟩ := by
  unfold setValue at h
  simp only [Result.guard_eq_ok_iff] at h
  obtain ⟨htracking, -, hknown, h⟩ := h
  obtain ⟨value, hvalue, h⟩ := Result.bind_eq_ok_iff.mp h
  simp only [Result.guard_eq_ok_iff] at h
  obtain ⟨-, h⟩ := h
  refine ⟨by simpa using htracking, ?_, value, ?_⟩
  · intro hstart
    simp only [hstart, Bool.true_and, Bool.and_eq_true, decide_eq_true_eq, not_and,
      not_not] at hknown
    by_cases hmem : key ∈ knownKeys
    · exact .inl hmem
    · exact .inr (hknown hmem)
  · by_cases hkey : key = cmMode
    · rw [if_pos hkey] at h
      obtain ⟨mapping, hmapping, h⟩ := Result.bind_eq_ok_iff.mp h
      refine ⟨mapping, hvalue, by rw [if_pos hkey]; exact hmapping, ?_⟩
      exact (Result.pure_eq_ok_iff.mp h).symm
    · rw [if_neg hkey] at h
      obtain ⟨mapping, hmapping, h⟩ := Result.bind_eq_ok_iff.mp h
      refine ⟨mapping, hvalue, by rw [if_neg hkey]; exact hmapping, ?_⟩
      exact (Result.pure_eq_ok_iff.mp h).symm

theorem setProperty_mappingSet {property : String × RawValue} (h : MappingSet py state s)
    (hs : setProperty py state s property = .ok s') : MappingSet py state s' := by
  unfold setProperty at hs
  simp only at hs
  split_ifs at hs with hversion hconstraint hfeature
  · obtain ⟨name, -, rfl⟩ := Result.map_eq_ok_iff.mp hs
    exact h
  · obtain ⟨-, hknown, value, mapping, -, hmapping, rfl⟩ := setValue_ok hs
    by_cases hkey : canonicalKey py property.1 = cmMode
    · rw [if_pos hkey] at hmapping
      rw [hkey, if_neg (by simp [cmMode, inCommit])]
      exact mappingSet_enable h hmapping rfl
    · rw [if_neg hkey] at hmapping
      cases hmapping
      have hmax : canonicalKey py property.1 ≠ cmMax := by
        intro heq
        rcases hknown (heq ▸ by decide) with hmem | hrow
        · exact absurd (heq ▸ hmem) (by decide)
        · exact absurd (heq ▸ hrow) (by decide)
      refine h.of_get rfl ?_ ?_
      · rw [Config.get_set, if_neg (Ne.symm hkey)]
        split_ifs
        · rw [Config.get_set, if_neg (by decide), Config.get_set, if_neg (by decide)]
        · rfl
      · rw [Config.get_set, if_neg (Ne.symm hmax)]
        split_ifs
        · rw [Config.get_set, if_neg (by decide), Config.get_set, if_neg (by decide)]
        · rfl

theorem setProperties_mappingSet {properties : List (String × RawValue)} (h : MappingSet py state s)
    (hs : properties.foldlM (setProperty py state) s = .ok s') : MappingSet py state s' := by
  induction properties generalizing s with
  | nil =>
    cases hs
    exact h
  | cons property properties ih =>
    rw [foldlM_cons] at hs
    obtain ⟨next, hnext, hs⟩ := Result.bind_eq_ok_iff.mp hs
    exact ih (setProperty_mappingSet h hnext) hs

theorem mappingSet_start : MappingSet py state ⟨state.configuration, [], none⟩ :=
  .inl ⟨rfl, rfl, fun _ => rfl⟩

theorem ifChanged_cases (state : TableState) (metadata : TableMetadata) :
    ifChanged state metadata = none ∨ ifChanged state metadata = some metadata := by
  unfold ifChanged
  split_ifs
  · exact .inl rfl
  · exact .inr rfl

theorem mapped_congr {config' : Config}
    (h : columnMappingMode py config' = columnMappingMode py config) :
    Metadata.mapped py config' = Metadata.mapped py config := by
  rw [Metadata.mapped, Metadata.mapped, h]

variable {change : Change}

theorem evolved_set {properties : List (String × RawValue)} (hgone : gone py state e = [])
    (hfollow : ∀ l ∈ state.schema.places, follow py state e l = l)
    (hmapped : Metadata.mapped py state.configuration = true)
    (h : setProperties py state properties = .ok change) :
    Evolved py state e (state.apply change) [] := by
  obtain ⟨s, hs, -, rfl⟩ := setProperties_ok h
  rcases setProperties_mappingSet mappingSet_start hs with
    ⟨hschema, hmode, hmax⟩ | ⟨-, hnone, -⟩
  · rcases ifChanged_cases state { state.metadata with
      schema := s.schema.getD state.schema
      configuration := s.configuration } with hsame | hsame
    · refine .same hgone hfollow ?_ ?_ ?_
      · rw [schema_apply_none hsame]
      · rw [configuration_apply_none hsame]
      · rw [configuration_apply_none hsame]
        exact hmapped
    · refine .same hgone hfollow ?_ ?_ ?_
      · rw [schema_apply hsame, hschema]
        rfl
      · rw [configuration_apply hsame]
        exact hmax hmapped
      · rw [configuration_apply hsame]
        exact (mapped_congr hmode).trans hmapped
  · exact absurd hnone (mapped_ne_none hmapped)

theorem unsetKeys_get {ifExists : Bool} {keys removed : List String} {r : Config × List String}
    (h : unsetKeys py ifExists config removed keys = .ok r) (hkey : key = cmMode ∨ key = cmMax) :
    r.1.get key = config.get key := by
  induction keys generalizing config removed with
  | nil =>
    cases h
    rfl
  | cons raw keys ih =>
    rw [unsetKeys] at h
    split_ifs at h with hrefused hstamp htracking hthere hexists
    · exact ih h
    · rw [ih h, Config.get_remove, if_neg]
      push Not at hrefused
      rcases hkey with rfl | rfl
      · exact Ne.symm hrefused.2.1
      · exact Ne.symm hrefused.2.2

theorem evolved_unset {keys : List String} {ifExists : Bool}
    (hmapped : Metadata.mapped py state.configuration = true)
    (h : unsetProperties py state keys ifExists = .ok change) :
    Evolved py state (.unsetProperties keys ifExists) (state.apply change) [] := by
  obtain ⟨r, hr, ⟨-, rfl⟩ | ⟨-, rfl⟩⟩ := unsetProperties_ok h
  · exact .nothing rfl (fun _ _ => rfl) hmapped
  · refine .same rfl (fun _ _ => rfl) rfl ?_ ?_
    · exact unsetKeys_get hr (.inr rfl)
    · exact (mapped_of_get (unsetKeys_get hr (.inl rfl))).trans hmapped

variable {added : Config} {constraints : List (String × String)}

theorem newConstraints_keys {existing : List String} {added' : Config}
    (hkeys : ∀ e ∈ added, startsWith e.1 constraintsPrefix = true)
    (h : newConstraints py existing added constraints = .ok added') :
    ∀ e ∈ added', startsWith e.1 constraintsPrefix = true := by
  induction constraints generalizing added with
  | nil =>
    cases h
    exact hkeys
  | cons constraint rest ih =>
    obtain ⟨name, expression⟩ := constraint
    rw [newConstraints] at h
    split_ifs at h
    refine ih ?_ h
    intro e he
    rcases mem_append.mp he with he | he
    · exact hkeys e he
    · rw [mem_singleton] at he
      subst he
      simp [startsWith]

theorem get_foldl_set (h : ∀ e ∈ added, e.1 ≠ key) :
    (added.foldl (fun config e => config.set e.1 e.2) config).get key = config.get key := by
  induction added generalizing config with
  | nil => rfl
  | cons e added ih =>
    rw [foldl_cons, ih fun e he => h e (mem_cons_of_mem _ he), Config.get_set,
      if_neg (Ne.symm (h e mem_cons_self))]

theorem get_addedConstraints {existing : List String}
    (h : newConstraints py existing [] constraints = .ok added)
    (hkey : startsWith key constraintsPrefix = false) (config : Config) :
    (added.foldl (fun config e => config.set e.1 e.2) config).get key = config.get key := by
  apply get_foldl_set
  rintro e he rfl
  rw [newConstraints_keys (by simp) h e he] at hkey
  cases hkey

theorem evolved_addConstraints (hmapped : Metadata.mapped py state.configuration = true)
    (h : addConstraints py state constraints = .ok change) :
    Evolved py state (.addConstraints constraints) (state.apply change) [] := by
  rcases addConstraints_ok h with rfl | ⟨added, hadded, rfl⟩
  · exact .nothing rfl (fun _ _ => rfl) hmapped
  · refine .same rfl (fun _ _ => rfl) rfl ?_ ?_
    · exact get_addedConstraints hadded (by decide) _
    · exact (mapped_of_get (get_addedConstraints hadded (by decide) _)).trans hmapped

theorem evolved_clusterBy {columns : List String}
    (hmapped : Metadata.mapped py state.configuration = true)
    (h : clusterBy py state columns = .ok change) :
    Evolved py state (.clusterBy columns) (state.apply change) [] := by
  obtain ⟨-, physical, -, rfl | rfl⟩ := clusterBy_ok h
  · exact .nothing rfl (fun _ _ => rfl) hmapped
  · exact .same rfl (fun _ _ => rfl) rfl rfl hmapped

theorem mapped_setMax (config : Config) (value : String) :
    Metadata.mapped py (config.set cmMax value) = Metadata.mapped py config := by
  apply mapped_of_get
  rw [Config.get_set, if_neg (by decide)]

theorem evolved_addColumns {newFields : List RawField} {uuid : Int → String}
    (hstruct : state.schema = .struct state.schema.fields)
    (hmapped : Metadata.mapped py state.configuration = true)
    (h : addColumns py uuid state newFields = .ok change) :
    ∃ new, Evolved py state (.addColumns newFields uuid) (state.apply change) new := by
  rcases addColumns_ok h with
    rfl | ⟨added, -, -, -, -, -, ⟨hnot, -⟩ | ⟨-, highest, hhighest, hmetadata⟩⟩
  · exact ⟨[], .nothing rfl (fun _ _ => rfl) hmapped⟩
  · rw [hmapped] at hnot
    cases hnot
  · refine ⟨fieldLabels ⟨none, []⟩ state.schema.fields.length
      (assignIds (drawn uuid) added (highest + 1)).1, ?_, ?_, .inr ⟨uuid, highest, _, rfl, hhighest,
        (assign_numbered _).2 added (highest + 1) _ _, ?_⟩⟩
    · have hplaces : (state.apply change).schema.places = state.schema.places ++
          fieldLabels ⟨none, []⟩ state.schema.fields.length
            (assignIds (drawn uuid) added (highest + 1)).1 := by
        rw [schema_apply hmetadata, hstruct]
        simp only [DataType.places, DataType.labels, fieldLabels_append, Nat.zero_add,
          DataType.fields_struct]
      rw [hplaces]
      simp only [gone, not_mem_nil, not_false_eq_true, decide_true, filter_true]
      have hfollow : follow py state (.addColumns newFields uuid) = id := rfl
      rw [hfollow, map_id]
    · rw [configuration_apply hmetadata]
      exact (mapped_setMax _ _).trans hmapped
    · rw [configuration_apply hmetadata, Config.get_set, if_pos rfl]

/-- What a merge does to a schema whose columns are mapped. -/
theorem evolved_mergeSchema {data : List ArrowField} {uuid : Int → String}
    (hstruct : state.schema = .struct state.schema.fields)
    (hmapped : Metadata.mapped py state.configuration = true)
    (h : mergeSchema py uuid state data = .ok change) :
    ∃ new, Evolved py state (.mergeSchema data uuid) (state.apply change) new := by
  obtain ⟨m, hm, ⟨-, -, rfl⟩ | ⟨-, -, -, ⟨hnot, -⟩ | ⟨-, highest, hhighest, hmetadata⟩⟩⟩ :=
    mergeSchema_ok h
  · exact ⟨[], .nothing rfl (fun _ _ => rfl) hmapped⟩
  · rw [hmapped] at hnot
    cases hnot
  · have hkept := (merge_grown.2 data _ _ _ m hm).kept
    have hthere : ∀ p ∈ m.added, ∃ l ∈ (DataType.struct m.merged).labels ⟨none, []⟩,
        l.position = p := by
      intro p hp
      obtain ⟨s, hs, rfl⟩ := hkept.there p hp
      obtain ⟨l, hl, rfl⟩ := mem_map.mp hs
      exact ⟨l, hl, rfl⟩
    have hstart : Numbered (drawn uuid) (highest + 1) (highest + 1)
        (((DataType.struct m.merged).labels ⟨none, []⟩).filter (below [])) := by
      have hnone : ((DataType.struct m.merged).labels ⟨none, []⟩).filter (below []) = [] := by
        simp [below]
      rw [hnone]
      exact .nil _ _
    have hnumbered := assignAt_numbered (drawn uuid) ⟨none, []⟩ m.added hthere hstart
    have hold : ((assignAt (drawn uuid) m.added (.struct m.merged) (highest + 1)).1.labels
        ⟨none, []⟩).filter (fun l => !below m.added l) = state.schema.places := by
      rw [assignAt_outside _ _ fun _ hp => hp, hkept.kept, ← hstruct]
      rfl
    have hplaces : (state.apply change).schema.places =
        (assignAt (drawn uuid) m.added (.struct m.merged) (highest + 1)).1.labels ⟨none, []⟩ := by
      rw [schema_apply hmetadata]
      rfl
    refine ⟨_, ?_, ?_, .inr ⟨uuid, highest, _, rfl, hhighest, hnumbered, ?_⟩⟩
    · simp only [gone, not_mem_nil, not_false_eq_true, decide_true, filter_true]
      have hfollow : follow py state (.mergeSchema data uuid) = id := rfl
      rw [hfollow, map_id, ← hold, hplaces, nil_append]
      exact (filter_append_perm _ _).symm.trans perm_append_comm
    · rw [configuration_apply hmetadata]
      exact (mapped_setMax _ _).trans hmapped
    · rw [configuration_apply hmetadata, Config.get_set, if_pos rfl]

theorem evolved (hstruct : state.schema = .struct state.schema.fields)
    (hmapped : Metadata.mapped py state.configuration = true)
    (h : advance py state e = some state') :
    ∃ new, Evolved py state e state' new := by
  obtain ⟨change, hact, heq⟩ := advance_ok h
  cases e with
  | dropColumn column => exact evolved_dropColumn h
  | renameColumn old new => exact evolved_renameColumn h
  | alterColumnType column new => exact evolved_alterColumnType hmapped h
  | addColumns newFields uuid =>
    subst heq
    exact evolved_addColumns hstruct hmapped hact
  | mergeSchema data uuid =>
    subst heq
    exact evolved_mergeSchema hstruct hmapped hact
  | addConstraints constraints =>
    subst heq
    exact ⟨[], evolved_addConstraints hmapped hact⟩
  | setProperties properties =>
    subst heq
    exact ⟨[], evolved_set rfl (fun _ _ => rfl) hmapped hact⟩
  | addFeature feature =>
    subst heq
    exact ⟨[], evolved_set rfl (fun _ _ => rfl) hmapped hact⟩
  | unsetProperties keys ifExists =>
    subst heq
    exact ⟨[], evolved_unset hmapped hact⟩
  | clusterBy columns =>
    subst heq
    exact ⟨[], evolved_clusterBy hmapped hact⟩

end

end DeltaSwamp.Metadata
