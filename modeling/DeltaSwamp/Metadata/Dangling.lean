import DeltaSwamp.Metadata.Edited

/-!
# No dangling names

When every name a table stores still leads to the same column after a column is
dropped or renamed.
-/

namespace DeltaSwamp.Metadata

open List

section
variable (py : Python)

/-- The name a renamed column gets. -/
def newLeaf : Event → Option String
  | .renameColumn _ new => (newPath py new).toOption.map fun parts => parts.getLastD ""
  | _ => none

/-- The column an event takes away or gives another name. -/
def touched (state : TableState) : Event → Option Found
  | .dropColumn column => (splitIdentifier py column >>= find py state.schema.fields).toOption
  | .renameColumn old new =>
    (splitIdentifier py old >>= find py state.schema.fields).toOption.filter fun found =>
      newLeaf py (.renameColumn old new) ≠ some found.target.name
  | _ => none

/-- Where the field at a position stands after the event, if it is still there. -/
def moved (state : TableState) (e : Event) (p : Position) : Option Position :=
  match e with
  | .dropColumn column =>
    match target py state column with
    | some place => if place.isPrefixOf p then none else some (shift place p)
    | none => some p
  | _ => some p

/-- A name that led to a column leads to the same one. -/
def Followed (state : TableState) (e : Event) (before after : Option Position) : Prop :=
  ∀ p, before = some p → ∃ q, moved py state e p = some q ∧ after = some q

variable (loads : String → Option Json) (columns : String → List (List String))

/-- An expression names only columns that exist. -/
def Bound (schema : DataType) (text : String) : Prop :=
  ∀ r ∈ columns text, (sqlColumn py schema r).isSome = true

/-- An expression names the column at a place or something inside it. -/
def Through (schema : DataType) (place : Position) (text : String) : Prop :=
  ∃ r ∈ columns text, ∃ p, sqlColumn py schema r = some p ∧ place <+: p

/-- Whatever names only existing columns goes on naming the same ones. -/
structure NamesKept (state : TableState) (e : Event) (state' : TableState) : Prop where
  expressions : ∀ text ∈ expressions py loads state', Bound py columns state.schema text →
    ∀ r ∈ columns text,
      Followed py state e (sqlColumn py state.schema r) (sqlColumn py state'.schema r)
  statistics : ∀ listed, state'.configuration.get statsColumns = some listed →
    ∀ paths, statsPaths py listed = .ok paths →
      (∀ path ∈ paths, (pathColumn py state.schema path).isSome = true) → ∀ path ∈ paths,
        Followed py state e (pathColumn py state.schema path) (pathColumn py state'.schema path)
  partitions : List.Forall₂ (fun name name' => Followed py state e
    (pathColumn py state.schema [name]) (pathColumn py state'.schema [name']))
    state.metadata.partitionColumns state'.metadata.partitionColumns
  clustering : clusteringColumns state' = clusteringColumns state ∧
    ∀ key ∈ clusteringColumns state,
      Followed py state e (keyColumn state.schema key) (keyColumn state'.schema key)

/-- A key leads past a renamed column, and not to a later one that has its new name. -/
def KeyApart (state : TableState) (found : Found) (leaf : String) (key : List String) : Prop :=
  ∀ p, keyColumn state.schema key = some p → ¬ found.position <+: p ∧
    ∀ pre j q, found.position = pre ++ [.field found.index] → p = pre ++ .field j :: q →
      found.index < j → key[pre.length]? ≠ some leaf

/-- Nothing the operation fails to look at, or to see, names the column. -/
structure Unmissed (state : TableState) (e : Event) (found : Found) : Prop where
  /-- Column invariants are not looked at. -/
  invariants : ∀ s ∈ state.schema.marks noTypeMark (invariantOf loads),
    (moved py state e s.1).isSome = true → Bound py columns state.schema s.2 →
    ¬ Through py columns state.schema found.position s.2
  constraints : ∀ c ∈ constraintsOf py state.configuration, Bound py columns state.schema c.2 →
    Through py columns state.schema found.position c.2 →
    startsWith c.1 constraintsPrefix = true ∧
      PlainMention py c.2.toList found.target.name.toList
  generated : ∀ s ∈ state.schema.marks noTypeMark generationOf,
    (moved py state e s.1).isSome = true → Bound py columns state.schema s.2 →
    Through py columns state.schema found.position s.2 →
    PlainMention py s.2.toList found.target.name.toList
  statistics : ∀ listed, state.configuration.get statsColumns = some listed →
    ∀ paths, statsPaths py listed = .ok paths →
      (∀ path ∈ paths, (pathColumn py state.schema path).isSome = true) →
      (∃ path ∈ paths, ∃ p, pathColumn py state.schema path = some p ∧ found.position <+: p) →
      PlainMention py listed.toList found.target.name.toList
  /-- A renamed column with no physical name of its own would take another. -/
  clustering : ∀ leaf, newLeaf py e = some leaf →
    (∃ s, found.target.physical = some (.str s)) ∨
      ∀ key ∈ clusteringColumns state, KeyApart state found leaf key

end

section
variable {py : Python} {loads : String → Option Json} {columns : String → List (List String)}
  {state state' : TableState} {e : Event} {found : Found}

variable {name : String}

theorem dependents_nil (h : dependents py state name = []) :
    (∀ c ∈ state.configuration, startsWith c.1 constraintsPrefix = true →
      ¬ PlainMention py c.2.toList name.toList) ∧
    (∀ listed, state.configuration.get statsColumns = some listed →
      ¬ PlainMention py listed.toList name.toList) ∧
    ∀ f ∈ state.schema.walk, ∀ text ∈ generationOf f.metadata,
      ¬ PlainMention py text.toList name.toList := by
  rw [dependents, append_eq_nil_iff, flatMap_eq_nil_iff, flatMap_eq_nil_iff] at h
  obtain ⟨hconfig, hfields⟩ := h
  refine ⟨?_, ?_, ?_⟩
  · intro c hc hkey hplain
    have hentry := (append_eq_nil_iff.mp (hconfig c hc)).1
    rw [hkey, references_iff.mpr hplain] at hentry
    simp at hentry
  · intro listed hlisted hplain
    obtain ⟨l₁, l₂, heq, -⟩ := lookup_eq_some_iff.mp hlisted
    have hentry := (append_eq_nil_iff.mp
      (hconfig (statsColumns, listed) (heq ▸ by simp))).2
    rw [references_iff.mpr hplain] at hentry
    simp at hentry
  · intro f hf text htext hplain
    have hentry := hfields f hf
    rw [generationOf, Option.mem_toList] at htext
    obtain ⟨j, hj, htext⟩ := Option.bind_eq_some_iff.mp htext
    cases j with
    | str s =>
      cases htext
      rw [hj] at hentry
      simp [references_iff.mpr hplain] at hentry
    | _ => cases htext

theorem mem_walk {own : Fields → List String} {t : DataType} {x : String} :
    x ∈ t.walk.flatMap (fun f => own f.metadata) ↔ ∃ s ∈ t.marks noTypeMark own, s.2 = x := by
  rw [(walk_marks own).1, DataType.markNames, mem_map]

/-- What an accepted event does to the names of a table. -/
structure Edited (py : Python) (state : TableState) (e : Event) (state' : TableState)
    (found : Found) : Prop where
  kept : ∀ enter, (∀ fields, enter (DataType.struct fields) = .struct [] fields) → ∀ path p,
    resolve (sameName py) enter state.schema.fields path = some p → ¬ found.position <+: p →
    ∃ q, moved py state e p = some q ∧
      resolve (sameName py) enter state'.schema.fields path = some q
  lost : ∀ enter, (∀ fields, enter (DataType.struct fields) = .struct [] fields) → ∀ path p,
    resolve (sameName py) enter state.schema.fields path = some p → found.position <+: p →
    ∀ q, moved py state e p = some q →
      resolve (sameName py) enter state'.schema.fields path ≠ some q
  marks : ∀ own x, x ∈ state'.schema.markNames noTypeMark own ↔
    ∃ s ∈ state.schema.marks noTypeMark own, (moved py state e s.1).isSome = true ∧ s.2 = x
  configuration : state'.configuration = state.configuration
  dependents : dependents py state found.target.name = []
  partitions : List.Forall₂ (fun name name' => Followed py state e
    (pathColumn py state.schema [name]) (pathColumn py state'.schema [name']))
    state.metadata.partitionColumns state'.metadata.partitionColumns
  keys : clusteringColumns state' = clusteringColumns state
  clustering : (∀ key ∈ clusteringColumns state,
      Followed py state e (keyColumn state.schema key) (keyColumn state'.schema key)) ↔
    ∀ leaf, newLeaf py e = some leaf → (∃ s, found.target.physical = some (.str s)) ∨
      ∀ key ∈ clusteringColumns state, KeyApart state found leaf key

/-- An expression goes on naming its columns exactly when the column changed is none of them. -/
theorem Edited.text (h : Edited py state e state' found) {text : String} :
    (∀ r ∈ columns text,
      Followed py state e (sqlColumn py state.schema r) (sqlColumn py state'.schema r)) ↔
      ¬ Through py columns state.schema found.position text := by
  constructor
  · rintro hfollowed ⟨r, hr, p, hp, hthrough⟩
    obtain ⟨q, hmoved, hq⟩ := hfollowed r hr p hp
    exact h.lost DataType.inValues (fun _ => rfl) r p hp hthrough q hmoved hq
  · intro hnot r hr p hp
    apply h.kept DataType.inValues (fun _ => rfl) r p hp
    intro hthrough
    exact hnot ⟨r, hr, p, hp, hthrough⟩

theorem Edited.paths (h : Edited py state e state' found) {paths : List (List String)} :
    (∀ path ∈ paths,
      Followed py state e (pathColumn py state.schema path) (pathColumn py state'.schema path)) ↔
      ¬ ∃ path ∈ paths, ∃ p, pathColumn py state.schema path = some p ∧ found.position <+: p := by
  have hresolve : ∀ (schema : DataType) path, pathColumn py schema path =
      resolve (sameName py) DataType.inStruct schema.fields path :=
    fun schema path => (resolve_find schema.fields path).symm
  simp only [hresolve]
  constructor
  · rintro hfollowed ⟨path, hpath, p, hp, hthrough⟩
    obtain ⟨q, hmoved, hq⟩ := hfollowed path hpath p hp
    exact h.lost DataType.inStruct (fun _ => rfl) path p hp hthrough q hmoved hq
  · intro hnot path hpath p hp
    apply h.kept DataType.inStruct (fun _ => rfl) path p hp
    intro hthrough
    exact hnot ⟨path, hpath, p, hp, hthrough⟩

theorem Edited.iff (h : Edited py state e state' found) :
    NamesKept py loads columns state e state' ↔ Unmissed py loads columns state e found := by
  obtain ⟨hconstraints, hlisted, hgenerated⟩ := dependents_nil h.dependents
  have hmarks : ∀ (own : Fields → List String) (x : String),
      x ∈ state'.schema.walk.flatMap (fun f => own f.metadata) ↔
        ∃ s ∈ state.schema.marks noTypeMark own,
          (moved py state e s.1).isSome = true ∧ s.2 = x := by
    intro own x
    rw [(walk_marks own).1]
    exact h.marks own x
  constructor
  · intro hkept
    have hnot : ∀ text ∈ expressions py loads state', Bound py columns state.schema text →
        ¬ Through py columns state.schema found.position text :=
      fun text htext hbound => h.text.mp (hkept.expressions text htext hbound)
    refine ⟨?_, ?_, ?_, ?_, h.clustering.mp hkept.clustering.2⟩
    · intro s hs hstays hbound
      apply hnot _ _ hbound
      exact mem_append_right _ ((hmarks _ _).mpr ⟨s, hs, hstays, rfl⟩)
    · intro c hc hbound hthrough
      refine absurd hthrough (hnot _ ?_ hbound)
      rw [expressions, h.configuration]
      exact mem_append_left _ (mem_append_left _ (mem_map_of_mem hc))
    · intro s hs hstays hbound hthrough
      refine absurd hthrough (hnot _ ?_ hbound)
      apply mem_append_left
      exact mem_append_right _ ((hmarks _ _).mpr ⟨s, hs, hstays, rfl⟩)
    · intro listed hlist paths hpaths hbound hthrough
      have hfollowed := hkept.statistics listed (h.configuration ▸ hlist) paths hpaths hbound
      exact absurd hthrough (h.paths.mp hfollowed)
  · intro hunmissed
    refine ⟨?_, ?_, h.partitions, h.keys, h.clustering.mpr hunmissed.clustering⟩
    · intro text htext hbound
      apply h.text.mpr
      intro hthrough
      rw [expressions, h.configuration, mem_append, mem_append] at htext
      rcases htext with (htext | htext) | htext
      · obtain ⟨c, hc, rfl⟩ := mem_map.mp htext
        obtain ⟨hkey, hplain⟩ := hunmissed.constraints c hc hbound hthrough
        exact hconstraints c (mem_filter.mp hc).1 hkey hplain
      · obtain ⟨s, hs, hstays, rfl⟩ := (hmarks _ _).mp htext
        have hplain := hunmissed.generated s hs hstays hbound hthrough
        obtain ⟨f, hf, hmem⟩ := mem_flatMap.mp (mem_walk.mpr ⟨s, hs, rfl⟩)
        exact hgenerated f hf _ hmem hplain
      · obtain ⟨s, hs, hstays, rfl⟩ := (hmarks _ _).mp htext
        exact hunmissed.invariants s hs hstays hbound hthrough
    · intro listed hlist paths hpaths hbound
      apply h.paths.mpr
      intro hthrough
      rw [h.configuration] at hlist
      exact hlisted listed hlist (hunmissed.statistics listed hlist paths hpaths hbound hthrough)

variable {path : List String}

theorem find_schema (h : find py state.schema.fields path = .ok found) :
    state.schema = .struct state.schema.fields := by
  cases hschema : state.schema with
  | struct fields => rfl
  | _ =>
    rw [hschema] at h
    cases path with
    | nil => cases h
    | cons name rest => cases h

theorem sameName_type (f : Field) (t : DataType) (name : String) :
    sameName py { f with type := t } name = sameName py f name := rfl

theorem samePhysical_type (f : Field) (t : DataType) (name : String) :
    samePhysical { f with type := t } name = samePhysical f name := rfl

variable {p : Position}

theorem pathColumn_one {schema : DataType} (h : pathColumn py schema [name] = some p) :
    ∃ f i, firstNamed (sameName py) name schema.fields = some (f, i) ∧ p = [.field i] := by
  rw [pathColumn, ← resolve_find, resolve_cons] at h
  obtain ⟨⟨f, i⟩, hfirst, h⟩ := Option.bind_eq_some_iff.mp h
  rw [if_pos rfl, Option.some.injEq] at h
  exact ⟨f, i, hfirst, h.symm⟩

theorem through_one (hfound : find py state.schema.fields path = .ok found)
    (h : pathColumn py state.schema [name] = some p) (hthrough : found.position <+: p) :
    path.length = 1 ∧ py.lower found.target.name = py.lower name := by
  obtain ⟨pre, hposition, hcont, hlength⟩ := find_structAt hfound
  obtain ⟨f, i, hfirst, rfl⟩ := pathColumn_one h
  rw [hposition] at hthrough
  obtain ⟨q, hq⟩ := prefix_iff.mp hthrough
  have hpre : pre = [] := by
    cases pre with
    | nil => rfl
    | cons s pre => simp at hq
  subst hpre
  rw [nil_append, List.cons.injEq, Step.field.injEq] at hq
  rw [DataType.structAt, Option.some.injEq] at hcont
  obtain ⟨hf, hname, -⟩ := firstNamed_iff.mp hfirst
  have htarget : found.container[found.index]? = some found.target := (find_ok hfound).2.1
  rw [hcont, hq.1, htarget, Option.some.injEq] at hf
  subst hf
  exact ⟨by simpa using hlength.symm, by simpa [sameName] using hname⟩

theorem resolve_at {same : Field → String → Bool} {enter : DataType → Inside} {t : DataType}
    {pre q : Position} {cont : List Field} {j : Nat}
    (hsame : ∀ (f : Field) t name, same { f with type := t } name = same f name)
    (henter : ∀ fields, enter (.struct fields) = .struct [] fields)
    (hcont : t.structAt pre = some cont)
    (h : resolve same enter t.fields path = some (pre ++ .field j :: q)) :
    ∃ name f, path[pre.length]? = some name ∧ cont[j]? = some f ∧ same f name = true := by
  rcases resolve_update hsame henter hcont path with ⟨-, hapart⟩ | ⟨-, hold, -⟩
  · exact absurd h (hapart j q)
  · rw [hold] at h
    obtain ⟨r, hr, heq⟩ := Option.map_eq_some_iff.mp h
    rw [append_cancel_left heq] at hr
    obtain ⟨name, rest, f, k, r', hdrop, hfirst, heq'⟩ := resolve_some hr
    cases heq'
    obtain ⟨hf, hname, -⟩ := firstNamed_iff.mp hfirst
    refine ⟨name, f, ?_, hf, hname⟩
    rw [← List.head?_drop, hdrop]
    rfl

theorem physicalPath_prefix {fields : List Field} {key : List String}
    (hfound : find py fields path = .ok found)
    (hkey : resolve samePhysical DataType.inStruct fields key = some p)
    (hthrough : found.position <+: p) : physicalPath py fields path <+: key := by
  have hfirst : ∀ (fields : List Field) (name : String),
      fields.find? (fun f => py.lower f.name = py.lower name) =
        (firstNamed (sameName py) name fields).map Prod.fst := by
    intro fields name
    rw [firstNamed]
    conv_lhs => rw [← zipIdx_map_fst 0 fields]
    rw [List.find?_map]
    rfl
  induction path generalizing fields found key p with
  | nil => exact nil_prefix
  | cons name rest ih =>
    rw [find] at hfound
    split at hfound
    · cases hfound
    · rename_i f i hfind
      have hnamed : firstNamed (sameName py) name fields = some (f, i) := hfind
      have hf : fields[i]? = some f := (firstNamed_iff.mp hnamed).1
      obtain ⟨part, krest, f', j, q, rfl, hpart, rfl⟩ := resolve_some hkey
      obtain ⟨hf', hphysical, -⟩ := firstNamed_iff.mp hpart
      -- The column and the key step to the same field.
      have hsame : ∀ p : Position, .field i :: p <+: .field j :: q → j = i ∧ f' = f := by
        intro p hp
        have hji : j = i := (Step.field.inj (cons_prefix_cons.mp hp).1).symm
        subst hji
        rw [hf, Option.some.injEq] at hf'
        exact ⟨rfl, hf'.symm⟩
      have hname : ∀ f, samePhysical f part = true → physicalName f = part := by
        intro f hf
        simpa [samePhysical] using hf
      simp only [physicalPath, hfirst, hnamed, Option.map_some]
      by_cases hrest : rest = []
      · rw [if_pos hrest] at hfound
        cases hfound
        obtain ⟨-, rfl⟩ := hsame [] hthrough
        subst hrest
        rw [physicalPath, hname _ hphysical]
        exact cons_prefix_cons.mpr ⟨rfl, nil_prefix⟩
      · rw [if_neg hrest] at hfound
        split at hfound
        · rename_i child htype
          obtain ⟨r, hr, rfl⟩ := Result.map_eq_ok_iff.mp hfound
          obtain ⟨rfl, rfl⟩ := hsame r.position hthrough
          have hdeep : r.position ≠ [] := fieldAt_ne_nil (find_ok hr).1
          have hinside := (cons_prefix_cons.mp hthrough).2
          rw [resolve_cons, hpart, Option.bind_some] at hkey
          by_cases hkrest : krest = []
          · rw [if_pos hkrest] at hkey
            cases hkey
            exact absurd (prefix_nil.mp hinside) hdeep
          · rw [if_neg hkrest] at hkey
            simp only [htype, DataType.inStruct] at hkey
            obtain ⟨q', hq', heq⟩ := Option.map_eq_some_iff.mp hkey
            cases heq
            rw [htype, hname _ hphysical]
            exact cons_prefix_cons.mpr ⟨rfl, ih hr hq' hinside⟩
        · cases hfound

theorem edited_drop {column : String} (h : advance py state (.dropColumn column) = some state')
    (htouched : touched py state (.dropColumn column) = some found) :
    Edited py state (.dropColumn column) state' found := by
  obtain ⟨change, hact, rfl⟩ := advance_ok h
  obtain ⟨-, path, found', hpath, hfound, hpartition, hclustering, hdependents, rfl⟩ :=
    dropColumn_ok hact
  have hsame : found' = found := by
    rw [touched, hpath] at htouched
    simp only [bind, Except.bind, hfound] at htouched
    exact Option.some.inj htouched
  subst hsame
  obtain ⟨pre, hposition, hcont, -⟩ := find_structAt hfound
  rw [← find_schema hfound] at hcont
  have hmoved : ∀ p, moved py state (.dropColumn column) p =
      if found'.position <+: p then none else some (shift found'.position p) := by
    intro p
    simp only [moved, target_eq hpath hfound, isPrefixOf_iff_prefix]
  have hkept : ∀ (same : Field → String → Bool) enter,
      (∀ (f : Field) t name, same { f with type := t } name = same f name) →
      (∀ fields, enter (DataType.struct fields) = .struct [] fields) → ∀ path p,
      resolve same enter state.schema.fields path = some p → ¬ found'.position <+: p →
      ∃ q, moved py state (.dropColumn column) p = some q ∧
        resolve same enter (state.schema.update (fun _ => []) found'.position).fields path =
          some q := by
    intro same enter hsame henter path p hp hout
    refine ⟨shift found'.position p, by rw [hmoved, if_neg hout], ?_⟩
    rw [hposition] at hout ⊢
    exact resolve_dropped hsame henter hcont hp hout
  refine ⟨?_, ?_, ?_, rfl, hdependents, ?_, rfl, ?_⟩
  · exact fun enter henter => hkept (sameName py) enter sameName_type henter
  · intro enter henter path p hp hthrough q hq
    rw [hmoved, if_pos hthrough] at hq
    cases hq
  · intro own x
    have hschema : (state.apply ⟨none, some { state.metadata with
        schema := state.schema.update (fun _ => []) found'.position }, none⟩).schema =
        state.schema.update (fun _ => []) found'.position := rfl
    rw [hschema, hposition, mem_markNames_updated hcont]
    constructor
    · rintro (⟨s, hs, hout, rfl⟩ | ⟨f, -, f', hf', -⟩)
      · rw [← hposition] at hout
        exact ⟨s, hs, by rw [hmoved, if_neg hout]; rfl, rfl⟩
      · simp at hf'
    · rintro ⟨s, hs, hstays, rfl⟩
      refine .inl ⟨s, hs, ?_, rfl⟩
      intro hthrough
      rw [← hposition] at hthrough
      rw [hmoved, if_pos hthrough] at hstays
      cases hstays
  · apply forall₂_same.mpr
    intro name hname p hp
    rw [pathColumn, ← resolve_find] at hp ⊢
    apply hkept (sameName py) DataType.inStruct sameName_type (fun _ => rfl) [name] p hp
    intro hthrough
    rw [resolve_find] at hp
    obtain ⟨hlength, hlower⟩ := through_one hfound hp hthrough
    have hnot := hpartition hlength
    rw [isPartition, any_eq_false] at hnot
    exact hnot name hname (by simpa using hlower.symm)
  · apply iff_of_true
    · intro key hkey p hp
      apply hkept samePhysical DataType.inStruct samePhysical_type (fun _ => rfl) key p hp
      intro hthrough
      have hprefix := physicalPath_prefix hfound hp hthrough
      exact hclustering key hkey (prefix_iff_eq_take.mp hprefix).symm
    · intro leaf hleaf
      cases hleaf

theorem samePhysical_renamed {f : Field} (leaf : String) :
    (∃ s, f.physical = some (.str s)) ∧
        (∀ name, samePhysical { f with name := leaf } name = samePhysical f name) ∨
      (¬ ∃ s, f.physical = some (.str s)) ∧
        (∀ name, samePhysical f name = true → f.name = name) ∧
        ∀ name, samePhysical { f with name := leaf } name = decide (leaf = name) := by
  have hsame : FieldOf.physical ({ f with name := leaf } : Field) = f.physical := rfl
  cases hphysical : f.physical with
  | none =>
    right
    refine ⟨by simp, ?_, ?_⟩
    · intro name hname
      simpa [samePhysical, physicalName, hphysical] using hname
    · intro name
      simp [samePhysical, physicalName, hsame, hphysical]
  | some j =>
    cases j with
    | str s =>
      left
      refine ⟨⟨s, rfl⟩, fun name => ?_⟩
      simp [samePhysical, physicalName, hsame, hphysical]
    | _ =>
      right
      refine ⟨by simp, ?_, ?_⟩
      · intro name hname
        simpa [samePhysical, physicalName, hphysical] using hname
      · intro name
        simp [samePhysical, physicalName, hsame, hphysical]

theorem keys_renamed {schema : DataType} {pre : Position} {cont : List Field} {f : Field} {i : Nat}
    {leaf : String} {keys : List (List String)} (hcont : schema.structAt pre = some cont)
    (hf : cont[i]? = some f) (hne : leaf ≠ f.name) :
    (∀ key ∈ keys, ∀ p, keyColumn schema key = some p →
      keyColumn (schema.update (fun f => [{ f with name := leaf }]) (pre ++ [.field i])) key =
        some p) ↔
    (∃ s, f.physical = some (.str s)) ∨ ∀ key ∈ keys, ∀ p, keyColumn schema key = some p →
      ¬ pre ++ [.field i] <+: p ∧ ∀ j q, p = pre ++ .field j :: q → i < j →
        key[pre.length]? ≠ some leaf := by
  have hg : (fun f : Field => [{ f with name := leaf }]) f = [{ f with name := leaf }] := rfl
  rcases samePhysical_renamed (f := f) leaf with ⟨hown, hmeans⟩ | ⟨hown, hold, hnew⟩
  · refine iff_of_true ?_ (.inl hown)
    intro key _ p hp
    refine (resolve_renamed_same samePhysical_type (fun _ => rfl) hcont hf hg ?_ hmeans).trans hp
    rfl
  · have hnot : ∀ name, samePhysical f name = true →
        samePhysical { f with name := leaf } name = false := by
      intro name hname
      rw [hnew, ← hold name hname]
      simpa using hne
    constructor
    · intro hkept
      right
      intro key hkey p hp
      have hafter := hkept key hkey p hp
      refine ⟨?_, ?_⟩
      · intro hthrough
        exact resolve_renamed_lost samePhysical_type (fun _ => rfl) hcont hf hg hnot hp hthrough
          hafter
      · rintro j q rfl hlt hleaf
        exact resolve_renamed_captured samePhysical_type (fun _ => rfl) hcont hf hg hlt hleaf
          (by rw [hnew]; simp) hafter
    · rintro (hown' | hapart) key hkey p hp
      · exact absurd hown' hown
      · obtain ⟨hout, hcaught⟩ := hapart key hkey p hp
        refine resolve_renamed samePhysical_type (fun _ => rfl) hcont hf hg hp hout ?_
        intro j q hq hlt name hname
        rw [hnew, decide_eq_false_iff_not]
        rintro rfl
        exact hcaught j q hq hlt hname

theorem find_one {fields : List Field} (h : find py fields path = .ok found)
    (hlength : path.length = 1) : found.position = [.field found.index] ∧
      found.container = fields ∧
      firstNamed (sameName py) found.target.name fields = some (found.target, found.index) := by
  cases path with
  | nil => cases h
  | cons name rest =>
    have hrest : rest = [] := by simpa using hlength
    subst hrest
    rw [find] at h
    split at h
    · cases h
    · rename_i f i hfind
      have hfirst : firstNamed (sameName py) name fields = some (f, i) := hfind
      rw [if_pos rfl] at h
      cases h
      have hlower : py.lower f.name = py.lower name := by
        simpa [sameName] using (firstNamed_iff.mp hfirst).2.1
      refine ⟨rfl, rfl, ?_⟩
      rw [← hfirst, firstNamed, firstNamed]
      simp only [sameName, hlower]

theorem pathColumn_renamed {leaf : String} (hfound : find py state.schema.fields path = .ok found)
    (hlength : path.length = 1) (hsibling : ∀ j g, found.container[j]? = some g → j ≠ found.index →
      py.lower g.name ≠ py.lower leaf) :
    pathColumn py (state.schema.update (fun f => [{ f with name := leaf }]) found.position) [leaf] =
      some found.position := by
  obtain ⟨hposition, hcont, hfirst⟩ := find_one hfound hlength
  have hf : state.schema.fields[found.index]? = some found.target := (firstNamed_iff.mp hfirst).1
  obtain ⟨hlt, -⟩ := List.getElem?_eq_some_iff.mp hf
  have hnew : firstNamed (sameName py) leaf
      (state.schema.fields.set found.index { found.target with name := leaf }) =
        some ({ found.target with name := leaf }, found.index) := by
    apply firstNamed_iff.mpr
    refine ⟨List.getElem?_set_self hlt, by simp [sameName], ?_⟩
    intro j g hj hg
    rw [List.getElem?_set_ne (by omega)] at hg
    have hne := hsibling j g (hcont ▸ hg) (by omega)
    simpa [sameName] using hne
  rw [find_schema hfound, hposition, pathColumn, ← resolve_find]
  simp only [DataType.update, if_true, DataType.fields_struct]
  rw [replaceNth_set hf rfl, resolve_cons, hnew, Option.bind_some, if_pos rfl]

section
variable {leaf : String}

/-- A name that leads elsewhere than to the renamed column leads there still, where none of the
column's siblings has its new name. -/
theorem resolve_beside_renamed (hfound : find py state.schema.fields path = .ok found)
    (hsibling : ∀ j g, found.container[j]? = some g → j ≠ found.index →
      py.lower g.name ≠ py.lower leaf) (enter : DataType → Inside)
    (henter : ∀ fields, enter (DataType.struct fields) = .struct [] fields) (names : List String)
    (p : Position) (hp : resolve (sameName py) enter state.schema.fields names = some p)
    (hout : ¬ found.position <+: p) :
    resolve (sameName py) enter (state.schema.update (fun f => [{ f with name := leaf }])
      found.position).fields names = some p := by
  obtain ⟨pre, hposition, hcont, -⟩ := find_structAt hfound
  rw [← find_schema hfound] at hcont
  have hf : found.container[found.index]? = some found.target := (find_ok hfound).2.1
  rw [hposition] at hout ⊢
  refine resolve_renamed sameName_type henter hcont hf rfl hp hout ?_
  rintro j q rfl hlt name hname
  obtain ⟨name', g, hname', hg, hgname⟩ := resolve_at sameName_type henter hcont hp
  rw [hname, Option.some.injEq] at hname'
  subst hname'
  have hgname : py.lower g.name = py.lower name := by simpa [sameName] using hgname
  have hnot := hsibling j g hg (by omega)
  simpa [sameName, ← hgname] using Ne.symm hnot

theorem marks_renamed (hfound : find py state.schema.fields path = .ok found)
    (own : Fields → List String) (x : String) :
    x ∈ (state.schema.update (fun f => [{ f with name := leaf }]) found.position).markNames
        noTypeMark own ↔
      ∃ s ∈ state.schema.marks noTypeMark own, s.2 = x := by
  obtain ⟨pre, hposition, hcont, -⟩ := find_structAt hfound
  rw [← find_schema hfound] at hcont
  have hf : found.container[found.index]? = some found.target := (find_ok hfound).2.1
  have hat : state.schema.fieldAt found.position = some found.target :=
    fieldAt_of_fields (find_ok hfound).1
  rw [hposition, mem_markNames_updated hcont]
  constructor
  · rintro (⟨s, hs, -, rfl⟩ | ⟨f, hf', f', hf'', hx⟩)
    · exact ⟨s, hs, rfl⟩
    · rw [hf, Option.some.injEq] at hf'
      subst hf'
      rw [mem_singleton] at hf''
      subst hf''
      have hx : x ∈ found.target.markNames noTypeMark own := hx
      exact mem_map.mp (markNames_fieldAt hat hx)
  · rintro ⟨s, hs, rfl⟩
    by_cases hthrough : found.position <+: s.1
    · have hx : s.2 ∈ found.target.markNames noTypeMark own := mark_below hat hs hthrough
      exact .inr ⟨found.target, hf, _, mem_singleton_self _, hx⟩
    · rw [hposition] at hthrough
      exact .inl ⟨s, hs, hthrough, rfl⟩

/-- The partition columns name the columns they named, the renamed one by its new name. -/
theorem partitions_renamed (hfound : find py state.schema.fields path = .ok found)
    (hsibling : ∀ j g, found.container[j]? = some g → j ≠ found.index →
      py.lower g.name ≠ py.lower leaf) :
    List.Forall₂ (fun name name' => ∀ p, pathColumn py state.schema [name] = some p →
        pathColumn py (state.schema.update (fun f => [{ f with name := leaf }]) found.position)
          [name'] = some p)
      state.metadata.partitionColumns
      (if path.length = 1 then
        state.metadata.partitionColumns.map fun p =>
          if py.lower p = py.lower found.target.name then leaf else p
      else state.metadata.partitionColumns) := by
  have hother : ∀ name p, pathColumn py state.schema [name] = some p →
      ¬ found.position <+: p → pathColumn py (state.schema.update
        (fun f => [{ f with name := leaf }]) found.position) [name] = some p := by
    intro name p hp hout
    rw [pathColumn, ← resolve_find] at hp ⊢
    exact resolve_beside_renamed hfound hsibling DataType.inStruct (fun _ => rfl) [name] p hp hout
  split_ifs with hone
  · apply forall₂_map_right_iff.mpr
    apply forall₂_same.mpr
    intro name _ p hp
    split_ifs with hname
    · obtain ⟨hposition, -, hfirst⟩ := find_one hfound hone
      obtain ⟨f, i, hnamed, rfl⟩ := pathColumn_one hp
      have hboth : firstNamed (sameName py) name state.schema.fields =
          firstNamed (sameName py) found.target.name state.schema.fields := by
        rw [firstNamed, firstNamed]
        simp only [sameName, hname]
      rw [hboth, hfirst] at hnamed
      cases hnamed
      rw [← hposition]
      exact pathColumn_renamed hfound hone hsibling
    · apply hother name p hp
      intro hthrough
      exact hname (through_one hfound hp hthrough).2.symm
  · apply forall₂_same.mpr
    intro name _ p hp
    apply hother name p hp
    intro hthrough
    exact hone (through_one hfound hp hthrough).1

end

theorem edited_rename {old new : String}
    (h : advance py state (.renameColumn old new) = some state')
    (htouched : touched py state (.renameColumn old new) = some found) :
    Edited py state (.renameColumn old new) state' found := by
  obtain ⟨change, hact, rfl⟩ := advance_ok h
  obtain ⟨-, path, found', parts, hpath, hfound, hparts, -, hexists, hcases⟩ := renameColumn_ok hact
  have hleaf : newLeaf py (.renameColumn old new) = some (parts.getLastD "") := by
    rw [newLeaf, hparts]
    rfl
  obtain ⟨hthere, hne⟩ := Option.filter_eq_some_iff.mp htouched
  have hsame : found' = found := by
    rw [hpath] at hthere
    simp only [bind, Except.bind, hfound] at hthere
    exact Option.some.inj hthere
  subst hsame
  rw [hleaf, decide_eq_true_eq, Ne, Option.some.injEq] at hne
  rcases hcases with ⟨heq, -⟩ | ⟨hlower, hdependents, rfl⟩
  · exact absurd heq hne
  obtain ⟨pre, hposition, hcont, -⟩ := find_structAt hfound
  rw [← find_schema hfound] at hcont
  have hf : found'.container[found'.index]? = some found'.target := (find_ok hfound).2.1
  -- None of the column's siblings has its new name.
  have hsibling : ∀ j g, found'.container[j]? = some g → j ≠ found'.index →
      py.lower g.name ≠ py.lower (parts.getLastD "") := by
    intro j g hg hj
    exact hexists g (mem_eraseIdx_iff_getElem?.mpr ⟨j, hj, hg⟩)
  refine ⟨?_, ?_, ?_, rfl, hdependents, ?_, rfl, ?_⟩
  · intro enter henter path p hp hout
    exact ⟨p, rfl, resolve_beside_renamed hfound hsibling enter henter path p hp hout⟩
  · rintro enter henter path p hp hthrough q hq
    cases hq
    rw [hposition] at hthrough
    have hnot : ∀ name, sameName py found'.target name = true →
        sameName py { found'.target with name := parts.getLastD "" } name = false := by
      intro name hname
      have hname' : py.lower found'.target.name = py.lower name := by simpa [sameName] using hname
      simpa [sameName, ← hname'] using hlower
    have hlost : resolve (sameName py) enter (state.schema.update
        (fun f => [{ f with name := parts.getLastD "" }]) (pre ++ [.field found'.index])).fields
        path ≠ some p := resolve_renamed_lost sameName_type henter hcont hf rfl hnot hp hthrough
    rw [← hposition] at hlost
    exact hlost
  · intro own x
    refine (marks_renamed hfound own x).trans (exists_congr fun s => and_congr_right fun _ => ?_)
    exact (and_iff_right rfl).symm
  · exact (partitions_renamed hfound hsibling).imp fun name name' hkept p hp =>
      ⟨p, rfl, hkept p hp⟩
  · have hkeys : (∀ key ∈ clusteringColumns state, ∀ p, keyColumn state.schema key = some p →
        keyColumn (state.schema.update (fun f => [{ f with name := parts.getLastD "" }])
          (pre ++ [.field found'.index])) key = some p) ↔ _ := keys_renamed hcont hf hne
    rw [← hposition] at hkeys
    constructor
    · intro hfollowed leaf hleaf'
      rw [hleaf, Option.some.injEq] at hleaf'
      subst hleaf'
      refine (hkeys.mp ?_).imp_right ?_
      · intro key hkey p hp
        obtain ⟨q, hq, hafter⟩ := hfollowed key hkey p hp
        cases hq
        exact hafter
      · intro hapart key hkey p hp
        obtain ⟨hout, hcaught⟩ := hapart key hkey p hp
        refine ⟨hout, ?_⟩
        intro pre' j q hpre' hq hlt
        have hpre : pre' = pre := by
          rw [hposition] at hpre'
          exact (append_cancel_right hpre').symm
        subst hpre
        exact hcaught j q hq hlt
    · intro hclause key hkey p hp
      refine ⟨p, rfl, hkeys.mpr ((hclause _ hleaf).imp_right ?_) key hkey p hp⟩
      intro hapart key hkey p hp
      obtain ⟨hout, hcaught⟩ := hapart key hkey p hp
      exact ⟨hout, fun j q hq hlt => hcaught pre j q hposition hq hlt⟩

/-- A drop or a rename keeps every name the table stores exactly when nothing it fails to look at,
or to see, names the column. -/
theorem names_kept_iff (h : advance py state e = some state')
    (hkind : (∃ column, e = .dropColumn column) ∨ ∃ old new, e = .renameColumn old new) :
    NamesKept py loads columns state e state' ↔
      ∀ found, touched py state e = some found → Unmissed py loads columns state e found := by
  cases htouched : touched py state e with
  | some found =>
    have hedited : Edited py state e state' found := by
      rcases hkind with ⟨column, rfl⟩ | ⟨old, new, rfl⟩
      · exact edited_drop h htouched
      · exact edited_rename h htouched
    rw [hedited.iff]
    constructor
    · intro hunmissed found' heq
      rw [Option.some.injEq] at heq
      exact heq ▸ hunmissed
    · intro hall
      exact hall found rfl
  | none =>
    refine iff_of_true ?_ (by simp)
    obtain ⟨change, hact, rfl⟩ := advance_ok h
    rcases hkind with ⟨column, rfl⟩ | ⟨old, new, rfl⟩
    · obtain ⟨-, path, found, hpath, hfound, -⟩ := dropColumn_ok hact
      rw [touched, hpath] at htouched
      simp only [bind, Except.bind, hfound] at htouched
      cases htouched
    · obtain ⟨-, path, found, parts, hpath, hfound, hparts, -, -, hcases⟩ := renameColumn_ok hact
      have hnothing : change = .nothing := by
        rcases hcases with ⟨-, hnothing⟩ | ⟨hlower, -, -⟩
        · exact hnothing
        · rw [touched, hpath, newLeaf, hparts] at htouched
          simp only [bind, Except.bind, hfound] at htouched
          have hsame : parts.getLastD "" = found.target.name := by
            simpa [Except.toOption, Option.filter] using htouched
          rw [hsame] at hlower
          exact absurd rfl hlower
      subst hnothing
      refine ⟨?_, ?_, ?_, rfl, ?_⟩
      · exact fun text _ _ r _ p hp => ⟨p, rfl, hp⟩
      · exact fun listed _ paths _ _ path _ p hp => ⟨p, rfl, hp⟩
      · exact forall₂_same.mpr fun name _ p hp => ⟨p, rfl, hp⟩
      · exact fun key _ p hp => ⟨p, rfl, hp⟩

end

/-- The bare words of a text that start with a letter, each a reference. -/
def bareWords (text : String) : List (List String) :=
  ((text.toList.splitBy fun a b => wordChar a && wordChar b).filter
    fun word => word.head?.any Char.isAlpha).map fun word => [String.ofList word]

def invariantOn (expression : String) : Fields :=
  [("delta.invariants", .obj [("expression", .obj [("expression", .str expression)])])]

def mappedField (name : String) (id : Int) (metadata : Fields) : Field :=
  ⟨name, .primitive "long", true,
    (cmPhysical, .str ("col-" ++ name)) :: (cmId, .int id) :: metadata⟩

/-- Two columns and a third whose invariant is about the first. -/
def meterState : TableState where
  version := 3
  protocol := ⟨3, 7, some ["columnMapping"], some ["columnMapping", "invariants"]⟩
  metadata := ⟨.struct [mappedField "low" 1 [], mappedField "spare" 2 [],
    mappedField "high" 3 (invariantOn "high > low")], [], [(cmMode, "name"), (cmMax, "3")]⟩
  clustering := none

theorem names_kept_spare : ∃ state',
    advance ascii meterState (.dropColumn "spare") = some state' ∧
      NamesKept ascii (fun _ => none) bareWords meterState (.dropColumn "spare") state' := by
  have hdrop : (advance ascii meterState (.dropColumn "spare")).isSome = true := by decide +kernel
  obtain ⟨state', hstate⟩ := Option.isSome_iff_exists.mp hdrop
  refine ⟨state', hstate, (names_kept_iff hstate (.inl ⟨_, rfl⟩)).mpr ?_⟩
  intro found hfound
  have hplace : ((touched ascii meterState (.dropColumn "spare")).map Found.position) =
      some [.field 1] := by decide +kernel
  rw [hfound, Option.map_some, Option.some.injEq] at hplace
  have hapart : (meterState.schema.marks noTypeMark (invariantOf fun _ => none)).all (fun s =>
      (bareWords s.2).all fun r => (sqlColumn ascii meterState.schema r).all fun p =>
        !([.field 1] : Position).isPrefixOf p) = true := by decide +kernel
  refine ⟨?_, ?_, ?_, ?_, ?_⟩
  · rintro s hs - - ⟨r, hr, p, hp, hthrough⟩
    have hnot := all_eq_true.mp (all_eq_true.mp hapart s hs) r hr
    rw [hp, Option.all_some, Bool.not_eq_true', hplace.symm] at hnot
    rw [List.isPrefixOf_iff_prefix.mpr hthrough] at hnot
    cases hnot
  · have hnone : constraintsOf ascii meterState.configuration = [] := by decide +kernel
    intro c hc
    rw [hnone] at hc
    cases hc
  · have hnone : meterState.schema.marks noTypeMark generationOf = [] := by decide +kernel
    intro s hs
    rw [hnone] at hs
    cases hs
  · have hnone : meterState.configuration.get statsColumns = none := by decide
    intro listed hlisted
    rw [hnone] at hlisted
    cases hlisted
  · intro leaf hleaf
    cases hleaf

/-- Renaming a column that another's invariant names leaves the invariant naming nothing. -/
theorem invariant_dangles : ∃ state',
    advance ascii meterState (.renameColumn "low" "least") = some state' ∧
      ¬ NamesKept ascii (fun _ => none) bareWords meterState (.renameColumn "low" "least")
        state' := by
  have hrename : ((advance ascii meterState (.renameColumn "low" "least")).any fun state' =>
      "high > low" ∈ expressions ascii (fun _ => none) state' &&
        sqlColumn ascii state'.schema ["low"] = none) = true := by decide +kernel
  obtain ⟨state', hstate, hafter⟩ := (Option.any_eq_true _ _).mp hrename
  rw [Bool.and_eq_true, decide_eq_true_eq, decide_eq_true_eq] at hafter
  have hbound : (bareWords "high > low").all (fun r =>
      (sqlColumn ascii meterState.schema r).isSome) = true := by decide +kernel
  have hlow : ["low"] ∈ bareWords "high > low" := by decide +kernel
  refine ⟨state', hstate, fun hkept => ?_⟩
  obtain ⟨p, hp⟩ := Option.isSome_iff_exists.mp (all_eq_true.mp hbound _ hlow)
  obtain ⟨q, -, hq⟩ := hkept.expressions _ hafter.1 (all_eq_true.mp hbound) _ hlow p hp
  rw [hafter.2] at hq
  cases hq

end DeltaSwamp.Metadata
