import DeltaSwamp.Metadata.Evolution

/-!
# Column-mapping identity over histories

Once columns are mapped, every field at every depth has an id of its own and a
physical name no sibling has, neither ever one a dropped field had, and a field
that stays keeps both.
-/

namespace DeltaSwamp.Metadata

open List

/-- What a field is known by in the data files. -/
def Label.identity (l : Label) : Home × Option Json × Option Json := (l.home, l.id, l.physical)

/-- Ids are the fields' own and within the recorded maximum, and siblings' physical names
differ. -/
structure Identified (py : Python) (config : Config) (labels : List Label) : Prop where
  bounded : ∃ top, config.get cmMax = some (py.str top) ∧ ∀ l ∈ labels, ∃ n s,
    l.id = some (.int n) ∧ n ≤ top ∧ l.physical = some (.str s)
  ids : (labels.map Label.id).Nodup
  keys : (labels.map Label.key).Nodup

section
variable {py : Python} {config config' : Config} {labels labels' new : List Label}

theorem map_id_identity (labels : List Label) :
    labels.map Label.id = (labels.map Label.identity).map fun i => i.2.1 := by
  rw [map_map]
  rfl

theorem map_key_identity (labels : List Label) :
    labels.map Label.key = (labels.map Label.identity).map fun i => (i.1, i.2.2) := by
  rw [map_map]
  rfl

theorem Identified.congr (h : Identified py config labels)
    (hperm : (labels'.map Label.identity).Perm (labels.map Label.identity))
    (hmax : config'.get cmMax = config.get cmMax) : Identified py config' labels' := by
  obtain ⟨top, htop, hbounded⟩ := h.bounded
  refine ⟨⟨top, hmax.trans htop, ?_⟩, ?_, ?_⟩
  · intro l hl
    obtain ⟨l', hl', heq⟩ := mem_map.mp (hperm.subset (mem_map_of_mem hl))
    obtain ⟨n, s, hid, hle, hphysical⟩ := hbounded l' hl'
    have hsame := Prod.mk.inj heq
    have hsame' := Prod.mk.inj hsame.2
    exact ⟨n, s, hsame'.1 ▸ hid, hle, hsame'.2 ▸ hphysical⟩
  · rw [map_id_identity, (hperm.map _).nodup_iff, ← map_id_identity]
    exact h.ids
  · rw [map_key_identity, (hperm.map _).nodup_iff, ← map_key_identity]
    exact h.keys

/-- The texts are all different, and none is in a physical name so far. -/
def FreshFor (uuid : Int → String) (labels : List Label) : Prop :=
  Function.Injective uuid ∧ ∀ n, ∀ l ∈ labels, l.physical ≠ some (.str ("col-" ++ uuid n))

variable {uuid : Int → String}

theorem drawn_injective (h : Function.Injective uuid) {n m : Int}
    (heq : "col-" ++ uuid n = "col-" ++ uuid m) : n = m := by
  apply h
  exact String.append_right_inj _ |>.mp heq

theorem Numbered.physical_nodup (huuid : Function.Injective uuid) {lo hi : Int}
    (h : Numbered (drawn uuid) lo hi labels) : (labels.map Label.physical).Nodup := by
  apply List.Nodup.map_on _ (List.Nodup.of_map Label.id h.nodup)
  intro l hl l' hl' heq
  obtain ⟨n, -, -, hid, hphysical⟩ := h.numbered l hl
  obtain ⟨m, -, -, hid', hphysical'⟩ := h.numbered l' hl'
  rw [hphysical, hphysical', Option.some.injEq, Json.str.injEq] at heq
  have hsame : n = m := drawn_injective huuid heq
  exact inj_on_of_nodup_map h.nodup hl hl' (by rw [hid, hid', hsame])

theorem keys_of_physical (h : (labels.map Label.physical).Nodup) :
    (labels.map Label.key).Nodup := by
  have hsnd : (labels.map Label.key).map Prod.snd = labels.map Label.physical := by
    rw [map_map]
    rfl
  exact List.Nodup.of_map Prod.snd (hsnd ▸ h)

theorem Identified.grow (h : Identified py config labels) (hfresh : FreshFor uuid labels)
    {highest next : Int} (hhighest : ∀ top, config.get cmMax = some (py.str top) → top ≤ highest)
    (hnew : Numbered (drawn uuid) (highest + 1) next new)
    (hmax : config'.get cmMax = some (py.str (next - 1))) :
    Identified py config' (labels ++ new) := by
  obtain ⟨top, htop, hbounded⟩ := h.bounded
  have hle := hhighest top htop
  have hnext := hnew.le
  refine ⟨⟨next - 1, hmax, ?_⟩, ?_, ?_⟩
  · intro l hl
    rcases mem_append.mp hl with hl | hl
    · obtain ⟨n, s, hid, hn, hphysical⟩ := hbounded l hl
      exact ⟨n, s, hid, by omega, hphysical⟩
    · obtain ⟨n, -, hn, hid, hphysical⟩ := hnew.numbered l hl
      exact ⟨n, _, hid, by omega, hphysical⟩
  · rw [map_append, nodup_append']
    refine ⟨h.ids, hnew.nodup, ?_⟩
    intro id hold hadded
    obtain ⟨l, hl, rfl⟩ := mem_map.mp hold
    obtain ⟨l', hl', heq⟩ := mem_map.mp hadded
    obtain ⟨n, s, hid, hn, -⟩ := hbounded l hl
    obtain ⟨m, hm, -, hid', -⟩ := hnew.numbered l' hl'
    rw [hid, hid', Option.some.injEq, Json.int.injEq] at heq
    omega
  · rw [map_append, nodup_append']
    refine ⟨h.keys, keys_of_physical (hnew.physical_nodup hfresh.1), ?_⟩
    intro key hold hadded
    obtain ⟨l, hl, rfl⟩ := mem_map.mp hold
    obtain ⟨l', hl', heq⟩ := mem_map.mp hadded
    obtain ⟨n, -, -, -, hphysical⟩ := hnew.numbered l' hl'
    have hsame : l'.physical = l.physical := congrArg Prod.snd heq
    exact hfresh.2 n l hl (hsame.symm.trans hphysical)

theorem identified_numbered {physical : String → Int → String} {next : Int}
    (h : Numbered physical 1 next labels) (hkeys : (labels.map Label.key).Nodup)
    (hmax : config.get cmMax = some (py.str (next - 1))) : Identified py config labels := by
  refine ⟨⟨next - 1, hmax, ?_⟩, h.nodup, hkeys⟩
  intro l hl
  obtain ⟨n, -, hn, hid, hphysical⟩ := h.numbered l hl
  exact ⟨n, _, hid, by omega, hphysical⟩

end

def IsStruct (t : DataType) : Prop := ∃ fs, t = .struct fs

variable {t : DataType}

theorem IsStruct.eq (h : IsStruct t) : t = .struct t.fields := by
  obtain ⟨fs, rfl⟩ := h
  rfl

theorem IsStruct.update (h : IsStruct t) (g : Field → List Field) (p : Position) :
    IsStruct (t.update g p) := by
  obtain ⟨fs, rfl⟩ := h
  cases p with
  | nil => exact ⟨fs, rfl⟩
  | cons s p =>
    cases s with
    | field i => exact ⟨_, rfl⟩
    | element | key | value => exact ⟨fs, rfl⟩

theorem IsStruct.assignAt {physical : String → Int → String} {ps : List Position} (h : IsStruct t)
    (next : Int) : IsStruct (assignAt physical ps t next).1 := by
  induction ps generalizing t next with
  | nil => exact h
  | cons p ps ih =>
    rw [Metadata.assignAt]
    split
    · exact ih h next
    · exact ih (h.update _ p) _

section
variable {py : Python} {state state' : TableState}

variable {e : Event}

theorem advance_isStruct (hstruct : IsStruct state.schema) (h : advance py state e = some state') :
    IsStruct state'.schema := by
  obtain ⟨change, hact, rfl⟩ := advance_ok h
  have hkeep : ∀ c : Change, c.metadata = none → IsStruct (state.apply c).schema := by
    intro c hc
    rw [schema_apply_none hc]
    exact hstruct
  have hset : ∀ (c : Change) (m : TableMetadata), c.metadata = some m → IsStruct m.schema →
      IsStruct (state.apply c).schema := by
    intro c m hc hm
    rw [schema_apply hc]
    exact hm
  have hproperties : ∀ properties, setProperties py state properties = .ok change →
      IsStruct (state.apply change).schema := by
    intro properties hact
    obtain ⟨s, hs, -, rfl⟩ := setProperties_ok hact
    rcases ifChanged_cases state { state.metadata with
      schema := s.schema.getD state.schema
      configuration := s.configuration } with hsame | hsame
    · exact hkeep _ hsame
    · apply hset _ _ hsame
      rcases setProperties_mappingSet mappingSet_start hs with ⟨hschema, -⟩ | ⟨hschema, -⟩
      · rw [hschema]
        exact hstruct
      · rw [hschema]
        exact ⟨_, rfl⟩
  cases e with
  | addColumns newFields uuid =>
    rcases addColumns_ok hact with rfl | ⟨added, -, -, -, -, -, ⟨-, hm⟩ | ⟨-, highest, -, hm⟩⟩
    · exact hkeep _ rfl
    · exact hset _ _ hm ⟨_, rfl⟩
    · exact hset _ _ hm ⟨_, rfl⟩
  | mergeSchema data uuid =>
    obtain ⟨m, -, ⟨-, -, rfl⟩ | ⟨-, -, -, ⟨-, hm⟩ | ⟨-, highest, -, hm⟩⟩⟩ := mergeSchema_ok hact
    · exact hkeep _ rfl
    · exact hset _ _ hm ⟨_, rfl⟩
    · exact hset _ _ hm (IsStruct.assignAt ⟨_, rfl⟩ _)
  | renameColumn old new =>
    obtain ⟨-, path, found, parts, -, -, -, -, -, ⟨-, rfl⟩ | ⟨-, -, rfl⟩⟩ := renameColumn_ok hact
    · exact hkeep _ rfl
    · exact hset _ _ rfl (hstruct.update _ _)
  | dropColumn column =>
    obtain ⟨-, path, found, -, -, -, -, -, rfl⟩ := dropColumn_ok hact
    exact hset _ _ rfl (hstruct.update _ _)
  | alterColumnType column new =>
    rcases alterColumnType_ok hact with rfl | ⟨path, found, old, -, -, -, -, rfl⟩
    · exact hkeep _ rfl
    · exact hset _ _ rfl (hstruct.update _ _)
  | addConstraints constraints =>
    rcases addConstraints_ok hact with rfl | ⟨added, -, rfl⟩
    · exact hkeep _ rfl
    · exact hset _ _ rfl hstruct
  | setProperties properties => exact hproperties properties hact
  | addFeature feature => exact hproperties _ hact
  | unsetProperties keys ifExists =>
    obtain ⟨r, -, ⟨-, rfl⟩ | ⟨-, rfl⟩⟩ := unsetProperties_ok hact
    · exact hkeep _ rfl
    · exact hset _ _ rfl hstruct
  | clusterBy columns =>
    obtain ⟨-, physical, -, rfl | rfl⟩ := clusterBy_ok hact
    · exact hkeep _ rfl
    · exact hkeep _ rfl

theorem checkNewFields_names {config : Config} {existing : List String} {newFields : List RawField}
    (h : checkNewFields py config existing newFields = .ok ()) {protocol : Protocol}
    {added : List Field} (hadded : newFields.mapM (newColumn py protocol) = .ok added) :
    ∀ f ∈ added, py.lower f.name ∉ existing := by
  induction newFields generalizing existing added with
  | nil =>
    cases hadded
    simp
  | cons raw newFields ih =>
    rw [mapM_cons] at hadded
    obtain ⟨f, hf, hadded⟩ := Result.bind_eq_ok_iff.mp hadded
    obtain ⟨fs, hfs, hadded⟩ := Result.bind_eq_ok_iff.mp hadded
    cases hadded
    rw [checkNewFields] at h
    unfold newColumn at hf
    split at h
    · rename_i name type hname htype
      simp only [Result.guard_eq_ok_iff] at h
      obtain ⟨hnew, -, -, hrest⟩ := h
      rw [hname, htype] at hf
      obtain ⟨t, -, hf⟩ := Result.bind_eq_ok_iff.mp hf
      simp only [Result.guard_eq_ok_iff, Result.pure_eq_ok_iff] at hf
      obtain ⟨-, -, rfl⟩ := hf
      intro g hg
      rcases mem_cons.mp hg with rfl | hg
      · exact hnew
      · exact fun hmem => ih hrest hfs g hg (mem_cons_of_mem _ hmem)
    · cases h

variable {change : Change}

theorem separate_addColumns {newFields : List RawField} {uuid : Int → String}
    (hstruct : IsStruct state.schema) (hmapped : mapped py state.configuration = false)
    (hsep : Separate py.lower nowhere state.schema.spots)
    (h : addColumns py uuid state newFields = .ok change) :
    Separate py.lower nowhere (state.apply change).schema.spots := by
  rcases addColumns_ok h with
    rfl | ⟨added, hcheck, hadded, hnames, -, -, ⟨-, hm⟩ | ⟨hyes, -⟩⟩
  · exact hsep
  · rw [schema_apply hm]
    rw [hstruct.eq] at hsep
    obtain ⟨htypes, hnew, -⟩ := (separate_of_checkNames py).2 added _ [] hnames
    have hold := checkNewFields_names hcheck hadded
    apply separate_struct
    · intro hnot
      rw [map_append, nodup_append']
      refine ⟨hsep.names hnot, hnew, ?_⟩
      intro name hname hname'
      obtain ⟨f, hf, rfl⟩ := mem_map.mp hname'
      exact hold f hf hname
    · intro i f hf
      rcases mem_append.mp (mem_of_getElem? hf) with hmem | hmem
      · obtain ⟨j, hj⟩ := mem_iff_getElem?.mp hmem
        exact (hsep.type hj).mono (List.Subset.refl _) fun _ hp => hp.elim
      · exact htypes f hmem
  · rw [hmapped] at hyes
    cases hyes

theorem spot_below {t : DataType} {p : Position} {f : Field} (h : t.fieldAt p = some f) {s : Spot}
    (hs : s ∈ t.spots) (hp : p <+: s.1) :
    s = (p, f.name) ∨ ∃ s' ∈ f.type.spots, s = (p ++ s'.1, s'.2) := by
  obtain ⟨before, after, inner, hsplit⟩ := exists_split_labels h ⟨none, []⟩
  obtain ⟨l, hl, rfl⟩ := mem_map.mp hs
  rw [hsplit.labels, append_assoc] at hl
  have hinside : l ∈ (f.labels inner).map (Label.under p) := by
    rcases mem_append.mp hl with hl | hl
    · exact absurd hp (hsplit.outside l (mem_append_left _ hl))
    · rcases mem_append.mp hl with hl | hl
      · exact hl
      · exact absurd hp (hsplit.outside l (mem_append_right _ hl))
  obtain ⟨l', hl', rfl⟩ := mem_map.mp hinside
  rcases mem_cons.mp hl' with rfl | hl'
  · left
    simp [Label.spot, Label.under, FieldOf.label]
  · exact .inr ⟨l'.spot, (mem_spots _).mpr ⟨l', hl', rfl⟩, rfl⟩

theorem separate_mergeSchema {data : List ArrowField} {uuid : Int → String}
    (hstruct : IsStruct state.schema) (hmapped : mapped py state.configuration = false)
    (hsep : Separate py.lower nowhere state.schema.spots)
    (h : mergeSchema py uuid state data = .ok change) :
    Separate py.lower nowhere (state.apply change).schema.spots := by
  obtain ⟨m, hm, ⟨-, -, rfl⟩ | ⟨hnames, -, -, ⟨-, hmetadata⟩ | ⟨hyes, -⟩⟩⟩ := mergeSchema_ok h
  · exact hsep
  · rw [schema_apply hmetadata]
    have hkept := (merge_grown.2 data _ _ _ m hm).kept
    rw [hstruct.eq] at hsep
    have hgrown := hkept.separate nowhere hsep
    intro a ha b hb hparent hname hnot
    -- Two fields of one struct inside a new field are told apart by the check on that field.
    by_cases hnew : ∃ q ∈ m.added, q <+: a.1.dropLast
    · obtain ⟨q, hq, hprefix⟩ := hnew
      obtain ⟨s, hs, rfl⟩ := hkept.there q hq
      obtain ⟨l, hl, rfl⟩ := mem_map.mp hs
      obtain ⟨f, hf⟩ := Option.isSome_iff_exists.mp
        ((fieldAt_isSome_iff _ ⟨none, []⟩ l.position).mpr ⟨l, hl, rfl⟩)
      have hcheck := hnames f (mem_filterMap.mpr ⟨_, hq, hf⟩)
      have hinner := ((separate_of_checkNames py).2 [f] _ [] hcheck).1 f mem_cons_self
      have hlong : ∀ c : Spot, c ∈ (DataType.struct m.merged).spots →
          l.position <+: c.1.dropLast → ∃ s' ∈ f.type.spots, c = (l.position ++ s'.1, s'.2) := by
        intro c hc hpre
        rcases spot_below hf hc (hpre.trans (List.dropLast_prefix _)) with rfl | hinside
        · have hlength := hpre.length_le
          have hne := fieldAt_ne_nil hf
          have hpos := length_pos_iff.mpr hne
          simp only [length_dropLast] at hlength
          omega
        · exact hinside
      obtain ⟨a', ha', rfl⟩ := hlong a ha hprefix
      obtain ⟨b', hb', rfl⟩ := hlong b hb (hparent ▸ hprefix)
      dsimp only at hparent hname ⊢
      rw [dropLast_append_of_ne_nil (spot_ne_nil ha'),
        dropLast_append_of_ne_nil (spot_ne_nil hb'), append_cancel_left_eq] at hparent
      rw [hinner a' ha' b' hb' hparent hname id]
    · exact hgrown a ha b hb hparent hname fun hexempt => hexempt.elim hnot hnew
  · rw [hmapped] at hyes
    cases hyes

/-- A table whose columns are not mapped: its names are separate, or its columns were just
mapped and are identified. -/
def MappedNow (py : Python) (state : TableState) : Prop :=
  (mapped py state.configuration = false ∧ Separate py.lower nowhere state.schema.spots) ∨
    (mapped py state.configuration = true ∧
      Identified py state.configuration state.schema.places)

theorem mappedNow_off (hmapped : mapped py state.configuration = false)
    (hconfig : state'.configuration.get cmMode = state.configuration.get cmMode)
    (hsep : Separate py.lower nowhere state'.schema.spots) : MappedNow py state' :=
  .inl ⟨(mapped_of_get hconfig).trans hmapped, hsep⟩

theorem mappedNow_set {properties : List (String × RawValue)} (hstruct : IsStruct state.schema)
    (hmapped : mapped py state.configuration = false)
    (hsep : Separate py.lower nowhere state.schema.spots)
    (h : setProperties py state properties = .ok change) : MappedNow py (state.apply change) := by
  obtain ⟨s, hs, -, rfl⟩ := setProperties_ok h
  rcases ifChanged_cases state { state.metadata with
    schema := s.schema.getD state.schema
    configuration := s.configuration } with hsame | hsame
  · left
    rw [configuration_apply_none hsame, schema_apply_none hsame]
    exact ⟨hmapped, hsep⟩
  · rcases setProperties_mappingSet mappingSet_start hs with
      ⟨hschema, hmode, -⟩ | ⟨hschema, -, hmode, hmax⟩
    · left
      rw [configuration_apply hsame, schema_apply hsame, hschema]
      exact ⟨(mapped_congr hmode).trans hmapped, hsep⟩
    · right
      rw [configuration_apply hsame, schema_apply hsame, hschema]
      rw [hstruct.eq] at hsep
      have hnumbered : Numbered logical 1 (assignIds logical state.schema.fields 1).2
          (DataType.struct (assignIds logical state.schema.fields 1).1).places :=
        (assign_numbered logical).2 _ 1 _ 0
      refine ⟨by simp [mapped, hmode], identified_numbered hnumbered ?_ hmax⟩
      apply (assign_keys py.lower).2
      · intro n hn
        cases hn
      · intro f hf
        obtain ⟨i, hi⟩ := mem_iff_getElem?.mp hf
        exact (hsep.type hi).mono (List.Subset.refl _) fun _ hp => hp.elim
      · exact hsep.names id

/-- An event on an unmapped table drops no field, and maps it whole if at all. -/
theorem mappedNow_step (hstruct : IsStruct state.schema)
    (hmapped : mapped py state.configuration = false)
    (hsep : Separate py.lower nowhere state.schema.spots) (h : advance py state e = some state') :
    gone py state e = [] ∧ MappedNow py state' := by
  obtain ⟨change, hact, rfl⟩ := advance_ok h
  cases e with
  | addColumns newFields uuid =>
    refine ⟨rfl, mappedNow_off hmapped ?_ (separate_addColumns hstruct hmapped hsep hact)⟩
    rcases addColumns_ok hact with rfl | ⟨added, -, -, -, -, -, ⟨-, hm⟩ | ⟨hyes, -⟩⟩
    · rfl
    · rw [configuration_apply hm]
      rfl
    · rw [hmapped] at hyes
      cases hyes
  | mergeSchema data uuid =>
    refine ⟨rfl, mappedNow_off hmapped ?_ (separate_mergeSchema hstruct hmapped hsep hact)⟩
    obtain ⟨m, -, ⟨-, -, rfl⟩ | ⟨-, -, -, ⟨-, hm⟩ | ⟨hyes, -⟩⟩⟩ := mergeSchema_ok hact
    · rfl
    · rw [configuration_apply hm]
      rfl
    · rw [hmapped] at hyes
      cases hyes
  | renameColumn old new =>
    have hyes := (renameColumn_ok hact).1
    rw [hmapped] at hyes
    cases hyes
  | dropColumn column =>
    have hyes := (dropColumn_ok hact).1
    rw [hmapped] at hyes
    cases hyes
  | alterColumnType column new =>
    rcases alterColumnType_ok hact with rfl | ⟨path, found, old, -, hfound, htype, -, rfl⟩
    · exact ⟨rfl, .inl ⟨hmapped, hsep⟩⟩
    · obtain ⟨before, after, inner, hsplit⟩ :=
        exists_split_labels (fieldAt_of_fields (find_ok hfound).1) ⟨none, []⟩
      have hupdate := hsplit.update (fun f => [{ f with
        type := .primitive (normaliseType py new)
        metadata := f.recordChange old (normaliseType py new) }]) _ rfl
      rw [labels_widened htype, ← hsplit.labels] at hupdate
      refine ⟨rfl, mappedNow_off hmapped rfl ?_⟩
      rw [DataType.spots] at hsep ⊢
      exact hupdate ▸ hsep
  | addConstraints constraints =>
    apply And.intro rfl
    rcases addConstraints_ok hact with rfl | ⟨added, hadded, rfl⟩
    · exact .inl ⟨hmapped, hsep⟩
    · exact mappedNow_off hmapped (get_addedConstraints hadded (by decide) _) hsep
  | setProperties properties => exact ⟨rfl, mappedNow_set hstruct hmapped hsep hact⟩
  | addFeature feature => exact ⟨rfl, mappedNow_set hstruct hmapped hsep hact⟩
  | unsetProperties keys ifExists =>
    apply And.intro rfl
    obtain ⟨r, hr, ⟨-, rfl⟩ | ⟨-, rfl⟩⟩ := unsetProperties_ok hact
    · exact .inl ⟨hmapped, hsep⟩
    · exact mappedNow_off hmapped (unsetKeys_get hr (.inl rfl)) hsep
  | clusterBy columns =>
    apply And.intro rfl
    obtain ⟨-, physical, -, rfl | rfl⟩ := clusterBy_ok hact
    · exact .inl ⟨hmapped, hsep⟩
    · exact .inl ⟨hmapped, hsep⟩

/-- A table over time: its state, and every field it has dropped. -/
structure History where
  state : TableState
  dropped : List Label
  deriving DecidableEq

/-- Every field the table has or had. -/
def History.labels (h : History) : List Label := h.state.schema.places ++ h.dropped

def History.next (py : Python) (h : History) (e : Event) : Option History :=
  (advance py h.state e).map fun s => ⟨s, h.dropped ++ gone py h.state e⟩

/-- No text an event draws was drawn before. -/
def Fresh (h : History) (e : Event) : Prop :=
  ∀ uuid, e.draws = some uuid → FreshFor uuid h.labels

variable {h h' : History}

theorem follow_identity (py : Python) (state : TableState) (e : Event) (l : Label) :
    (follow py state e l).identity = l.identity := by
  cases e with
  | dropColumn column =>
    rw [follow]
    cases target py state column with
    | none => rfl
    | some p => rfl
  | renameColumn old new =>
    simp only [follow]
    split
    · split_ifs
      · rfl
      · rfl
    · rfl
  | _ => rfl

theorem filter_gone (py : Python) (state : TableState) (e : Event) :
    (state.schema.places.filter fun l => decide (l ∈ gone py state e)) = gone py state e := by
  cases e with
  | dropColumn column =>
    rw [gone]
    apply filter_congr
    intro l hl
    simp [hl]
  | _ => simp [gone]

/-- What an event keeps, what it drops and what it adds are all the fields there are or were. -/
theorem Evolved.identities {new : List Label} (hev : Evolved py h.state e state' new) :
    ((state'.schema.places ++ (h.dropped ++ gone py h.state e)).map Label.identity).Perm
      ((h.labels ++ new).map Label.identity) := by
  have hfollow : ∀ ls : List Label, (ls.map (follow py h.state e)).map Label.identity =
      ls.map Label.identity := by
    intro ls
    rw [map_map]
    exact map_congr_left fun l _ => follow_identity py h.state e l
  have hparts : h.state.schema.places.Perm
      ((h.state.schema.places.filter fun l => decide (l ∉ gone py h.state e)) ++
        gone py h.state e) := by
    have hsplit := filter_append_perm (fun l => decide (l ∈ gone py h.state e))
      h.state.schema.places
    rw [filter_gone] at hsplit
    refine (hsplit.symm.trans perm_append_comm).trans ?_
    simp
  have hplaces := hev.places.map Label.identity
  rw [map_append, hfollow] at hplaces
  have hold := hparts.map Label.identity
  rw [map_append] at hold
  rw [perm_iff_count] at hplaces hold ⊢
  intro i
  have hi := hplaces i
  have hi' := hold i
  simp only [History.labels, map_append, count_append] at hi hi' ⊢
  omega

/-- What holds of a table at every point of its history: once its columns are mapped, every
field it has or had is identified. -/
structure Good (py : Python) (h : History) : Prop where
  struct : IsStruct h.state.schema
  on : mapped py h.state.configuration = true → Identified py h.state.configuration h.labels
  off : mapped py h.state.configuration = false →
    h.dropped = [] ∧ Separate py.lower nowhere h.state.schema.spots

theorem Good.start {draws : Draws} {table : NewTable} (hdraws : Function.Injective draws.column)
    (h : initialActions py draws table = .ok state) : Good py ⟨state, []⟩ := by
  obtain ⟨fields, config, hnames, hschema, hconfig⟩ := initialActions_ok h
  by_cases hmapped : mapped py config = true
  · rw [if_pos hmapped] at hschema hconfig
    have hon : mapped py state.configuration = true := by
      rw [hconfig, mapped_setMax, hmapped]
    refine ⟨⟨_, hschema⟩, fun _ => ?_, fun hoff => ?_⟩
    · have hnumbered : Numbered (drawn draws.column) 1 (assignIds (drawn draws.column) fields 1).2
          (History.labels ⟨state, []⟩) := by
        rw [History.labels, append_nil, DataType.places, hschema]
        exact (assign_numbered _).2 fields 1 _ 0
      apply identified_numbered hnumbered (keys_of_physical (hnumbered.physical_nodup hdraws))
      rw [hconfig, Config.get_set, if_pos rfl]
    · rw [hon] at hoff
      cases hoff
  · rw [if_neg hmapped] at hschema hconfig
    have hoff : mapped py state.configuration = false := by
      rw [hconfig]
      exact Bool.eq_false_iff.mpr hmapped
    refine ⟨⟨_, hschema⟩, fun hon => ?_, fun _ => ⟨rfl, ?_⟩⟩
    · rw [hoff] at hon
      cases hon
    · obtain ⟨htypes, hdistinct, -⟩ := (separate_of_checkNames py).2 fields _ [] hnames
      rw [hschema]
      exact separate_struct (fun _ => hdistinct) fun i f hf => htypes f (mem_of_getElem? hf)

theorem Good.step (hgood : Good py h) (hfresh : Fresh h e) (hnext : h.next py e = some h') :
    Good py h' := by
  obtain ⟨s, hs, rfl⟩ := Option.map_eq_some_iff.mp hnext
  have hstruct := advance_isStruct hgood.struct hs
  cases hmapped : mapped py h.state.configuration with
  | true =>
    obtain ⟨new, hev⟩ := evolved hgood.struct.eq hmapped hs
    refine ⟨hstruct, fun _ => ?_, fun hoff => ?_⟩
    · have hid := hgood.on hmapped
      rcases hev.numbered with ⟨rfl, hmax⟩ | ⟨uuid, highest, next, hdraws, hhighest, hnew, hmax⟩
      · apply hid.congr _ hmax
        have hsame := hev.identities
        rwa [append_nil] at hsame
      · have hgrown := hid.grow (hfresh uuid hdraws)
          (fun top htop => recorded_le htop hhighest) hnew hmax
        exact hgrown.congr hev.identities rfl
    · have hon := hev.mapped
      rw [hoff] at hon
      cases hon
  | false =>
    obtain ⟨hdropped, hsep⟩ := hgood.off hmapped
    obtain ⟨hgone, hnow⟩ := mappedNow_step hgood.struct hmapped hsep hs
    refine ⟨hstruct, fun hon => ?_, fun hoff => ?_⟩
    · rcases hnow with ⟨hoff, -⟩ | ⟨-, hid⟩
      · rw [hoff] at hon
        cases hon
      · simpa [History.labels, hdropped, hgone] using hid
    · rcases hnow with ⟨-, hsep⟩ | ⟨hon, -⟩
      · exact ⟨by simp [hdropped, hgone], hsep⟩
      · rw [hoff] at hon
        cases hon

/-- What column mapping promises of a table's fields over its history. -/
structure IdentityKept (py : Python) (h : History) : Prop where
  /-- Every field has an id, and none is above the recorded maximum. -/
  numbered : ∃ top, h.state.configuration.get cmMax = some (py.str top) ∧
    ∀ l ∈ h.state.schema.places, ∃ n, l.id = some (.int n) ∧ n ≤ top
  distinct : (h.state.schema.places.map Label.id).Nodup
  idNotReused : ∀ d ∈ h.dropped, ∀ l ∈ h.state.schema.places, l.id ≠ d.id
  named : ∀ l ∈ h.state.schema.places, ∃ s, l.physical = some (.str s)
  siblings : (h.state.schema.places.map Label.key).Nodup
  nameNotReused : ∀ d ∈ h.dropped, ∀ l ∈ h.state.schema.places, l.home = d.home →
    l.physical ≠ d.physical
  /-- A field an accepted event leaves is where it is followed to, with its id and name. -/
  survives : ∀ e h', h.next py e = some h' → ∀ l ∈ h.state.schema.places,
    l ∉ gone py h.state e → follow py h.state e l ∈ h'.state.schema.places ∧
      (follow py h.state e l).identity = l.identity

theorem Good.identityKept (hgood : Good py h) (hmapped : mapped py h.state.configuration = true) :
    IdentityKept py h := by
  have hid := hgood.on hmapped
  have hids := hid.ids
  have hkeys := hid.keys
  rw [History.labels, map_append, nodup_append'] at hids hkeys
  obtain ⟨top, htop, hbounded⟩ := hid.bounded
  refine ⟨⟨top, htop, ?_⟩, hids.1, ?_, ?_, hkeys.1, ?_, ?_⟩
  · intro l hl
    obtain ⟨n, s, hn, hle, -⟩ := hbounded l (mem_append_left _ hl)
    exact ⟨n, hn, hle⟩
  · intro d hd l hl heq
    exact hids.2.2 (mem_map_of_mem hl) (heq ▸ mem_map_of_mem hd)
  · intro l hl
    obtain ⟨n, s, -, -, hs⟩ := hbounded l (mem_append_left _ hl)
    exact ⟨s, hs⟩
  · intro d hd l hl hhome heq
    have hkey : l.key = d.key := Prod.ext hhome heq
    exact hkeys.2.2 (mem_map_of_mem hl) (hkey ▸ mem_map_of_mem hd)
  · intro e h' hnext l hl hstays
    obtain ⟨s, hs, rfl⟩ := Option.map_eq_some_iff.mp hnext
    obtain ⟨new, hev⟩ := evolved hgood.struct.eq hmapped hs
    refine ⟨hev.places.symm.subset ?_, follow_identity py h.state e l⟩
    apply mem_append_left
    exact mem_map_of_mem (mem_filter.mpr ⟨hl, decide_eq_true hstays⟩)

/-- Column-mapping identity is kept over every history. -/
theorem identity_kept {draws : Draws} {table : NewTable} {start : TableState}
    (hstart : initialActions py draws table = .ok start)
    (hdraws : Function.Injective draws.column)
    (hrun : Run (History.next py) Fresh ⟨start, []⟩ h)
    (hmapped : mapped py h.state.configuration = true) : IdentityKept py h := by
  have hgood : Good py h := hrun.invariant (Good.start hdraws hstart)
    fun s t e hs hok hnext => hs.step hok hnext
  exact hgood.identityKept hmapped

end

def sensorTable : NewTable where
  schema := .struct (some [⟨some "a", some (.text "long"), none, []⟩])
  required := ⟨none, [], []⟩
  configuration := [(cmMode, .text "name")]
  partitionColumns := []
  clusterBy := []

/-- Texts that differ for different ids. -/
def numberedText (start : String) (n : Int) : String := start ++ ascii.str n

def sensorField (name physical : String) (id : Int) : Field :=
  ⟨name, .primitive "long", true, [(cmPhysical, .str physical), (cmId, .int id)]⟩

def sensorState (version : Int) (top : String) (fields : List Field) : TableState where
  version := version
  protocol := ⟨3, 7, some ["columnMapping"], some ["columnMapping"]⟩
  metadata := ⟨.struct fields, [], [(cmMode, "name"), (cmMax, top)]⟩
  clustering := none

def sensorStart : TableState := sensorState 0 "1" [sensorField "a" "col-a1" 1]

def sensorWidened : History :=
  ⟨sensorState 1 "2" [sensorField "a" "col-a1" 1, sensorField "b" "col-b2" 2], []⟩

def addSensor : Event :=
  .addColumns [⟨some "b", some (.text "long"), none, []⟩] (numberedText "b")

theorem ok_of_toOption {ε α : Type} {x : Except ε α} {a : α} (h : x.toOption = some a) :
    x = .ok a := by
  cases x with
  | error e => cases h
  | ok b =>
    cases h
    rfl

theorem sensorStart_eq :
    initialActions ascii ⟨numberedText "a", "", ""⟩ sensorTable = .ok sensorStart :=
  ok_of_toOption (by decide +kernel)

theorem numberedText_injective (start : String) : Function.Injective (numberedText start) := by
  intro n m heq
  have hshown : ascii.str n = ascii.str m := (String.append_right_inj start).mp heq
  have hn := ascii.int_str n
  rw [hshown, ascii.int_str] at hn
  exact (Option.some.inj hn).symm

theorem addSensor_fresh : Fresh ⟨sensorStart, []⟩ addSensor := by
  intro uuid hdraws
  cases hdraws
  refine ⟨numberedText_injective "b", ?_⟩
  intro n l hl heq
  have hphysical : ((History.labels ⟨sensorStart, []⟩).map Label.physical) =
      [some (.str "col-a1")] := by decide +kernel
  have hmem : l.physical ∈ (History.labels ⟨sensorStart, []⟩).map Label.physical :=
    mem_map_of_mem hl
  rw [hphysical, mem_singleton] at hmem
  rw [hmem, Option.some.injEq, Json.str.injEq] at heq
  have hchars := congrArg String.toList heq
  simp [numberedText] at hchars

theorem identity_kept_sensors :
    ∃ h, Run (History.next ascii) Fresh ⟨sensorStart, []⟩ h ∧ h.dropped.length = 1 ∧
      IdentityKept ascii h := by
  have hadd : History.next ascii ⟨sensorStart, []⟩ addSensor = some sensorWidened := by
    decide +kernel
  have hdrop : ((History.next ascii sensorWidened (.dropColumn "a")).any fun h =>
      h.dropped.length = 1 && mapped ascii h.state.configuration) = true := by
    decide +kernel
  obtain ⟨h, hh, hlast⟩ := (Option.any_eq_true _ _).mp hdrop
  simp only [Bool.and_eq_true, decide_eq_true_eq] at hlast
  have hdropFresh : Fresh sensorWidened (.dropColumn "a") := by
    intro uuid hdraws
    cases hdraws
  have hrun : Run (History.next ascii) Fresh ⟨sensorStart, []⟩ h :=
    (Run.refl.step addSensor_fresh hadd).step hdropFresh hh
  exact ⟨h, hrun, hlast.1, identity_kept sensorStart_eq (numberedText_injective "a") hrun hlast.2⟩

end DeltaSwamp.Metadata
