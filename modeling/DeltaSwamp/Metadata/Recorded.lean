import DeltaSwamp.Metadata.Tracked

/-!
# Accepted type changes

Which changes of one column's type a call makes, one after another, and that
the column's history is extended by just these.
-/

namespace DeltaSwamp.Metadata

open List

def historyEntry (change : String × String) : Json :=
  .obj [("fromType", .str change.1), ("toType", .str change.2)]

/-- A column after some changes of its type. -/
structure Retyped (py : Python) (partition : Bool) (c : Column) (changes : List (String × String))
    (d : Column) : Prop where
  name : d.name = c.name
  trail : Trail (TypeChange py partition) c.type changes d.type
  history : d.history = c.history ++ changes.map historyEntry

/-- The change of a field's type that merging it asked for. -/
def widening (f : Field) (widened : Option String) : List (String × String) :=
  match widened, f.type with
  | some new, .primitive old => [(old, new)]
  | _, _ => []

section
variable (py : Python) (state : TableState)

mutual

/-- The changes `merge_type` makes at a position inside a type. -/
def changesIn (table : DataType) (path : String) (nested : Bool) (p : Position) :
    ArrowType → List (String × String)
  | .struct dataFields =>
    match table with
    | .struct fields => changesAmong fields path nested p dataFields
    | _ => []
  | .list kind value _ =>
    match table, p with
    | .array e _, .element :: rest =>
      if kind = .list || kind = .largeList then
        changesIn e (path ++ ".element") true rest value
      else []
    | _, _ => []
  | .map key item _ =>
    match table, p with
    | .map k _ _, .key :: rest => changesIn k (path ++ ".key") true rest key
    | .map _ v _, .value :: rest => changesIn v (path ++ ".value") true rest item
    | _, _ => []
  | _ => []

/-- The changes `merge_fields` makes at a position among the fields. -/
def changesAmong (fields : List Field) (path : String) (nested : Bool) (p : Position) :
    List ArrowField → List (String × String)
  | [] => []
  | ⟨name, type, nullable, metadata⟩ :: fs =>
    let location := if path = "" then name else path ++ "." ++ name
    match matchIndex py fields name with
    | none =>
      match newField py state ⟨name, type, nullable, metadata⟩ location with
      | .ok f => changesAmong (fields ++ [f]) path nested p fs
      | .error _ => []
    | some i =>
      match fields[i]? with
      | none => []
      | some f =>
        match mergeType py state f.type location nested type with
        | .error _ => []
        | .ok m =>
          (if p = [.field i] then widening f m.2
            else if p.head? = some (.field i) then changesIn f.type location nested p.tail type
            else []) ++
          changesAmong (fields.set i (widenField f m.1.merged m.2)) path nested p fs

end

/-- The change `alter_column_type` makes at a position. -/
def changesByAlter (column new : String) (p : Position) : List (String × String) :=
  match splitIdentifier py column >>= find py state.schema.fields with
  | .error _ => []
  | .ok found =>
    if found.position = p ∧ found.target.type ≠ .primitive (normaliseType py new) then
      widening found.target (some (normaliseType py new))
    else []

end

section
variable {py : Python} {state : TableState} {partition : Bool} {c d e : Column} {f : Field}
  {old new : String} {changes changes' : List (String × String)}

theorem Retyped.refl (py : Python) (partition : Bool) (c : Column) : Retyped py partition c [] c :=
  ⟨rfl, .nil _, by simp⟩

theorem Retyped.trans (h : Retyped py partition c changes d)
    (h' : Retyped py partition d changes' e) : Retyped py partition c (changes ++ changes') e := by
  refine ⟨h'.name.trans h.name, h.trail.append h'.trail, ?_⟩
  rw [h'.history, h.history, map_append, append_assoc]

theorem history_recordChange (f : Field) (old new : String) (t : DataType) :
    FieldOf.history { f with type := t, metadata := f.recordChange old new } =
      f.history ++ [historyEntry (old, new)] := by
  simp only [FieldOf.history, FieldOf.recordChange, Fields.lookup_insert, if_true]
  rfl

theorem retyped_recordChange (f : Field) (h : TypeChange py partition old new) :
    Retyped py partition ⟨f.name, old, f.history⟩ [(old, new)]
      ⟨f.name, new, FieldOf.history
        { f with type := DataType.primitive new, metadata := f.recordChange old new }⟩ :=
  ⟨rfl, .single h, history_recordChange f old new (.primitive new)⟩

theorem find_length {fields : List Field} {path : List String} {found : Found}
    (h : find py fields path = .ok found) : found.position.length = path.length := by
  induction path generalizing fields found with
  | nil => cases h
  | cons name rest ih =>
    rw [find] at h
    split at h
    · cases h
    · split_ifs at h with hrest
      · cases h
        simp [hrest]
      · split at h
        · obtain ⟨r, hr, rfl⟩ := Result.map_eq_ok_iff.mp h
          simp [ih hr]
        · cases h

theorem withoutSpaces_eq_iff {text : String} : withoutSpaces text = text ↔ ' ' ∉ text.toList := by
  rw [withoutSpaces, ← String.toList_inj, String.toList_ofList, filter_eq_self]
  constructor
  · intro h hmem
    simpa using h ' ' hmem
  · intro h c hc
    have hne : c ≠ ' ' := fun heq => h (heq ▸ hc)
    simpa using hne

theorem no_space_typeAlias {text : String} (h : ' ' ∉ text.toList) :
    ' ' ∉ (typeAlias text).toList := by
  unfold typeAlias
  split <;> first | decide | exact h

theorem withoutSpaces_normaliseType (name : String) :
    withoutSpaces (normaliseType py name) = normaliseType py name := by
  rw [withoutSpaces_eq_iff]
  have htext : ' ' ∉ (withoutSpaces (py.lower (strip py name))).toList :=
    withoutSpaces_eq_iff.mp (withoutSpaces_withoutSpaces _)
  unfold normaliseType
  generalize (withoutSpaces (py.lower (strip py name))).toList = text at htext ⊢
  have hhead : ' ' ∉ (typeAlias (String.ofList (text.takeWhile (· ≠ '(')))).toList := by
    apply no_space_typeAlias
    rw [String.toList_ofList]
    exact fun h => htext (takeWhile_subset _ h)
  simp only
  split
  · split_ifs
    · decide
    · exact hhead
  · rename_i paren tail hsplit
    have htail : ' ' ∉ tail := by
      intro h
      have hmem : ' ' ∈ text.dropWhile (· ≠ '(') := hsplit ▸ mem_cons_of_mem _ h
      exact htext (dropWhile_subset _ hmem)
    split
    · rename_i digits hdigits
      have hnot : ' ' ∉ digits.toList := by
        split_ifs at hdigits
        unfold bareScale at hdigits
        split at hdigits
        · cases hdigits
          rw [String.toList_ofList]
          exact fun h => htail (dropLast_subset _ h)
        · cases hdigits
      simp only [String.toList_append, mem_append, not_or]
      exact ⟨⟨by decide, hnot⟩, by decide⟩
    · simp only [String.toList_append, mem_append, String.toList_ofList, not_or]
      exact ⟨⟨hhead, by decide⟩, htail⟩

variable {column : String} {change : Change}

theorem alterColumnType_cases (h : alterColumnType py state column new = .ok change) :
    ∃ path found, splitIdentifier py column = .ok path ∧
      find py state.schema.fields path = .ok found ∧
      ((found.target.type = .primitive (normaliseType py new) ∧ change = .nothing) ∨
        ∃ old, found.target.type = .primitive old ∧ old ≠ normaliseType py new ∧
          TypeChange py
            (decide (found.position.length = 1) && isPartition py state found.target.name)
            old (normaliseType py new) ∧
          change = ⟨withFeatures state.protocol
              ("typeWidening" :: (DataType.primitive (normaliseType py new)).typeFeatures py.lower),
            some { state.metadata with
              schema := state.schema.update (fun f => [{ f with
                type := .primitive (normaliseType py new)
                metadata := f.recordChange old (normaliseType py new) }]) found.position },
            none⟩) := by
  unfold alterColumnType at h
  obtain ⟨path, hpath, h⟩ := Result.bind_eq_ok_iff.mp h
  obtain ⟨found, hfound, h⟩ := Result.bind_eq_ok_iff.mp h
  refine ⟨path, found, hpath, hfound, ?_⟩
  by_cases hsame : found.target.type = .primitive (normaliseType py new)
  · left
    rw [if_pos hsame] at h
    exact ⟨hsame, (Result.pure_eq_ok_iff.mp h).symm⟩
  · right
    simp only [if_neg hsame, Result.guard_eq_ok_iff] at h
    obtain ⟨-, h⟩ := h
    split at h
    · rename_i old htype
      simp only [Result.guard_eq_ok_iff, Result.pure_eq_ok_iff] at h
      obtain ⟨hallowed, hkeeps, -, rfl⟩ := h
      refine ⟨old, htype, ?_, ⟨.inl ⟨by simpa using hallowed, ?_⟩,
        withoutSpaces_normaliseType new⟩, rfl⟩
      · rintro rfl
        exact hsame htype
      · rw [find_length hfound]
        intro hpartition
        simpa [hpartition] using hkeeps
    · cases h

variable {p : Position}

theorem changesByAlter_found {path : List String} {found : Found}
    (hpath : splitIdentifier py column = .ok path)
    (hfound : find py state.schema.fields path = .ok found) :
    changesByAlter py state column new p =
      if found.position = p ∧ found.target.type ≠ .primitive (normaliseType py new) then
        widening found.target (some (normaliseType py new))
      else [] := by
  rw [changesByAlter, hpath]
  simp only [bind, Except.bind, hfound]

/-- Altering one column's type records it there, and leaves every other column as it is. -/
theorem alter_retyped (h : alterColumnType py state column new = .ok change)
    (hc : state.schema.columnAt p = some c) :
    ∃ d, (state.apply change).schema.columnAt p = some d ∧
      Retyped py (decide (p.length = 1) && isPartition py state c.name) c
        (changesByAlter py state column new p) d := by
  obtain ⟨path, found, hpath, hfound, hcases⟩ := alterColumnType_cases h
  rw [changesByAlter_found hpath hfound]
  have hat := fieldAt_of_fields (find_ok hfound).1
  obtain ⟨htype, rfl⟩ | ⟨old, htype, hne, hchange, rfl⟩ := hcases
  · rw [if_neg (by simp [htype]), schema_apply_none rfl]
    exact ⟨c, hc, .refl py _ c⟩
  · rw [schema_apply rfl]
    simp only
    rw [columnAt_update hat rfl]
    by_cases hp : found.position = p
    · subst hp
      obtain ⟨f, hf, -, hc'⟩ := fieldAt_of_columnAt hc
      cases hat.symm.trans hf
      have hold : c = ⟨found.target.name, old, found.target.history⟩ := by
        rw [DataType.columnAt, hat, Option.bind_some, FieldOf.column?, htype] at hc
        exact (Option.some.inj hc).symm
      subst hold
      rw [if_pos (prefix_refl _), drop_length, if_pos ⟨rfl, by simpa [htype] using hne⟩]
      simp only [widening, htype]
      exact ⟨_, rfl, retyped_recordChange found.target hchange⟩
    · have hother : ¬ (found.position = p ∧
          found.target.type ≠ .primitive (normaliseType py new)) := fun h => hp h.1
      rw [if_neg hother]
      split_ifs with hprefix
      · -- Nothing stands inside a column of a primitive type.
        obtain ⟨rest, rfl⟩ := hprefix
        rw [columnAt_append hat, FieldOf.columnAt, if_neg (by simpa using hp), htype,
          columnAt_primitive] at hc
        cases hc
      · exact ⟨c, hc, .refl py _ c⟩

theorem mergeType_primitive (old path : String) (nested : Bool) (data : ArrowType) :
    mergeType py state (.primitive old) path nested data =
      (mergePrimitive py state old data path nested >>= fun w =>
        pure (.unchanged (.primitive old), w)) := by
  cases data <;> rfl

variable {nested : Bool}

theorem mergePrimitive_ok {table path : String} {data : ArrowType}
    (h : mergePrimitive py state table data path nested = .ok (some new)) :
    withoutSpaces new = new ∧ isPartition py state path = false := by
  unfold mergePrimitive at h
  split at h
  · rename_i name heq
    by_cases hsame : (withoutSpaces name = withoutSpaces table ||
        !wideningAllowed py (withoutSpaces table) (withoutSpaces name)) = true
    · simp [hsame] at h
    · simp only [if_neg hsame, Result.guard_eq_ok_iff] at h
      obtain ⟨-, -, hpartition, -, h⟩ := h
      rw [Result.pure_eq_ok_iff, Option.some.injEq] at h
      subst h
      exact ⟨withoutSpaces_withoutSpaces name, by simpa using hpartition⟩
  · simp at h

/-- The column at a position after a merge, with the changes the merge made to it. -/
def MergedAt (py : Python) (merged : DataType) (widened : List String) (p : Position) (c : Column)
    (changes : List (String × String)) : Prop :=
  ∃ d, merged.columnAt p = some d ∧ Retyped py false c changes d ∧ (widened = [] → changes = [])

theorem mergedAt_same {t : DataType} (widened : List String) (hc : t.columnAt p = some c) :
    MergedAt py t widened p c [] :=
  ⟨c, hc, .refl py false c, fun _ => rfl⟩

theorem widenField_mergedAt {path : String} {data : ArrowType} {m : Merged DataType × Option String}
    {rest : Position} (h : mergeType py state f.type path nested data = .ok m)
    (hc : f.columnAt rest = some c)
    (hinside : f.type.columnAt rest = some c → MergedAt py m.1.merged m.1.widened rest c
      (changesIn py state f.type path nested rest data)) :
    ∃ d, (widenField f m.1.merged m.2).columnAt rest = some d ∧
      Retyped py false c (if rest = [] then widening f m.2
        else changesIn py state f.type path nested rest data) d ∧
      (m.1.widened ++ m.2.toList = [] →
        (if rest = [] then widening f m.2
          else changesIn py state f.type path nested rest data) = []) := by
  by_cases hrest : rest = []
  · subst hrest
    rw [FieldOf.columnAt, if_pos rfl] at hc
    simp only [if_true]
    cases htype : f.type with
    | primitive old =>
      rw [htype, mergeType_primitive] at h
      obtain ⟨w, hw, h⟩ := Result.bind_eq_ok_iff.mp h
      rw [Result.pure_eq_ok_iff] at h
      subst h
      have hold : c = ⟨f.name, old, f.history⟩ := by
        rw [FieldOf.column?, htype] at hc
        exact (Option.some.inj hc).symm
      subst hold
      cases w with
      | none =>
        refine ⟨_, ?_, .refl py false _, fun _ => rfl⟩
        simp [FieldOf.columnAt, FieldOf.column?, widenField, Merged.unchanged, FieldOf.history]
      | some new =>
        have hchange : TypeChange py false old new :=
          ⟨.inr ⟨rfl, (mergePrimitive_allowed hw).2⟩, (mergePrimitive_ok hw).1⟩
        simp only [widening, widenField, htype]
        exact ⟨_, rfl, retyped_recordChange f hchange, by simp⟩
    | struct fields | array e b | map k v b =>
      rw [FieldOf.column?, htype] at hc
      cases hc
  · rw [FieldOf.columnAt, if_neg hrest] at hc
    simp only [if_neg hrest]
    obtain ⟨d, hd, hretyped, hnone⟩ := hinside hc
    refine ⟨d, ?_, hretyped, fun h => hnone (append_eq_nil_iff.mp h).1⟩
    cases htype : f.type with
    | primitive old =>
      rw [htype, columnAt_primitive] at hc
      cases hc
    | struct fields | array e b | map k v b =>
      rw [FieldOf.columnAt, if_neg hrest]
      cases m.2 <;> simpa [widenField, htype] using hd

section
variable {a : ArrowField} {fields : List Field} {path : String} {nested : Bool}

theorem changesAmong_new {p : Position} (hnone : matchIndex py fields a.name = none)
    (hf : newField py state a (if path = "" then a.name else path ++ "." ++ a.name) = .ok f)
    (as : List ArrowField) :
    changesAmong py state fields path nested p (a :: as) =
      changesAmong py state (fields ++ [f]) path nested p as := by
  rw [changesAmong]
  simp only [hnone, hf]

theorem changesAmong_old {i j : Nat} {rest : Position} {m : Merged DataType × Option String}
    (hsome : matchIndex py fields a.name = some i) (hf : fields[i]? = some f)
    (hm : mergeType py state f.type (if path = "" then a.name else path ++ "." ++ a.name) nested
      a.type = .ok m) (as : List ArrowField) :
    changesAmong py state fields path nested (.field j :: rest) (a :: as) =
      (if i = j then
        if rest = [] then widening f m.2
        else changesIn py state f.type (if path = "" then a.name else path ++ "." ++ a.name) nested
          rest a.type
      else []) ++
      changesAmong py state (fields.set i (widenField f m.1.merged m.2)) path nested
        (.field j :: rest) as := by
  rw [changesAmong]
  simp only [hsome, hf, hm]
  by_cases hij : i = j
  · subst hij
    simp
  · simp [hij, Ne.symm hij]

end

theorem changesIn_of_not_enters {a : ArrowType} {table : DataType} (h : ¬ Enters a table)
    (path : String) (nested : Bool) (p : Position) :
    changesIn py state table path nested p a = [] := by
  cases a with
  | struct data =>
    cases table with
    | struct fields => exact absurd trivial h
    | _ => rfl
  | list kind value nullable =>
    cases table with
    | array e b =>
      rcases p with _ | ⟨s, rest⟩
      · rfl
      · cases s with
        | element => exact if_neg h
        | _ => rfl
    | _ => rfl
  | map key item nullable =>
    cases table with
    | map k v b => exact absurd trivial h
    | _ => rfl
  | _ => rfl

/-- A merge records every change it makes to a column, and makes it where the column is. -/
theorem merge_mergedAt :
    (∀ (data : ArrowType) (table : DataType) (path : String) (nested : Bool)
      (r : Merged DataType × Option String), mergeType py state table path nested data = .ok r →
      ∀ (p : Position) (c : Column), table.columnAt p = some c →
        MergedAt py r.1.merged r.1.widened p c (changesIn py state table path nested p data)) ∧
    ∀ (data : List ArrowField) (fields : List Field) (path : String) (nested : Bool)
      (r : Merged (List Field)), mergeFields py state fields path nested data = .ok r →
      ∀ (p : Position) (c : Column), (DataType.struct fields).columnAt p = some c →
        MergedAt py (.struct r.merged) r.widened p c
          (changesAmong py state fields path nested p data) := by
  refine merge_induct
    (P := fun data table path nested r => ∀ p c, table.columnAt p = some c →
      MergedAt py r.1.merged r.1.widened p c (changesIn py state table path nested p data))
    (Q := fun data fields path nested r => ∀ p c, (DataType.struct fields).columnAt p = some c →
      MergedAt py (.struct r.merged) r.widened p c
        (changesAmong py state fields path nested p data)) ?_ ?_ ?_ ?_ ?_ ?_ ?_ ?_
  · intro data name path nested w hw p c hc
    simp at hc
  · intro data table path nested henters p c hc
    rw [changesIn_of_not_enters henters]
    exact mergedAt_same _ hc
  · exact fun _ _ _ _ _ ih => ih
  · intro kind value nullable e b path nested m hkind ih p c hc
    rcases p with _ | ⟨s, rest⟩
    · simp at hc
    · cases s with
      | field i | key | value => cases hc
      | element =>
        rw [changesIn, if_pos hkind]
        exact ih rest c hc
  · intro key item nullable k v b path nested m n ihk ihv p c hc
    rcases p with _ | ⟨s, rest⟩
    · simp at hc
    · cases s with
      | field i | element => cases hc
      | key =>
        obtain ⟨d, hd, hretyped, hnone⟩ := ihk rest c hc
        exact ⟨d, hd, hretyped, fun h => hnone (append_eq_nil_iff.mp h).1⟩
      | value =>
        obtain ⟨d, hd, hretyped, hnone⟩ := ihv rest c hc
        exact ⟨d, hd, hretyped, fun h => hnone (append_eq_nil_iff.mp h).2⟩
  · exact fun _ _ _ _ _ hc => mergedAt_same _ hc
  · intro data datas fields path nested f m hnone hf ih p c hc
    obtain ⟨j, rest, g, rfl, hg, hcolumn⟩ := exists_field_of_columnAt hc
    rw [changesAmong_new hnone hf]
    apply ih
    rw [columnAt_struct, List.getElem?_append_left (List.getElem?_eq_some_iff.mp hg).1, hg]
    exact hcolumn
  · intro data datas fields path nested i f m n hsome hf hm iht ih p c hc
    obtain ⟨j, rest, g, rfl, hg, hcolumn⟩ := exists_field_of_columnAt hc
    rw [changesAmong_old hsome hf hm]
    have hlt := (List.getElem?_eq_some_iff.mp hf).1
    by_cases hij : i = j
    · subst hij
      cases hf.symm.trans hg
      obtain ⟨d, hd, hretyped, hnone⟩ := widenField_mergedAt hm hcolumn fun hc => iht rest c hc
      have hd' : (DataType.struct (fields.set i (widenField f m.1.merged m.2))).columnAt
          (.field i :: rest) = some d := by
        rw [columnAt_struct, List.getElem?_set_self hlt]
        exact hd
      obtain ⟨e, he, hretyped', hnone'⟩ := ih _ d hd'
      rw [if_pos rfl]
      refine ⟨e, he, hretyped.trans hretyped', fun h => ?_⟩
      obtain ⟨h, h'⟩ := append_eq_nil_iff.mp h
      rw [hnone h, hnone' h', append_nil]
    · have hc' : (DataType.struct (fields.set i (widenField f m.1.merged m.2))).columnAt
          (.field j :: rest) = some c := by
        rw [columnAt_struct, List.getElem?_set_ne hij, hg]
        exact hcolumn
      obtain ⟨e, he, hretyped, hnone⟩ := ih _ c hc'
      rw [if_neg hij, nil_append]
      exact ⟨e, he, hretyped, fun h => hnone (append_eq_nil_iff.mp h).2⟩

theorem isPartition_congr {a b : String} (h : py.lower a = py.lower b) :
    isPartition py state a = isPartition py state b := by
  rw [isPartition, isPartition, h]

/-- A merge changes no partition column's type. -/
theorem merge_partition : ∀ (data : List ArrowField) (fields : List Field) (path : String)
    (nested : Bool) (r : Merged (List Field)),
    mergeFields py state fields path nested data = .ok r → path = "" → ∀ i f, fields[i]? = some f →
      isPartition py state f.name = true →
      changesAmong py state fields path nested [.field i] data = [] := by
  refine (merge_induct (P := fun _ _ _ _ _ => True)
    (Q := fun data fields path nested _ => path = "" → ∀ i f, fields[i]? = some f →
      isPartition py state f.name = true →
      changesAmong py state fields path nested [.field i] data = [])
    ?_ ?_ ?_ ?_ ?_ ?_ ?_ ?_).2
  · exact fun _ _ _ _ _ _ => trivial
  · exact fun _ _ _ _ _ => trivial
  · exact fun _ _ _ _ _ _ => trivial
  · exact fun _ _ _ _ _ _ _ _ _ _ => trivial
  · exact fun _ _ _ _ _ _ _ _ _ _ _ _ => trivial
  · exact fun _ _ _ _ _ _ _ _ => rfl
  · intro a as fields path nested g m hnone hg ih hpath i f hf hpartition
    rw [changesAmong_new hnone hg]
    apply ih hpath i f _ hpartition
    rw [List.getElem?_append_left (List.getElem?_eq_some_iff.mp hf).1]
    exact hf
  · intro a as fields path nested j g m n hsome hg hm _ ih hpath i f hf hpartition
    obtain ⟨_, hg', hname⟩ := matchIndex_some hsome
    cases hg.symm.trans hg'
    rw [changesAmong_old hsome hg hm]
    have hlt := (List.getElem?_eq_some_iff.mp hg).1
    by_cases hij : j = i
    · subst hij
      cases hf.symm.trans hg
      have hnone : widening g m.2 = [] := by
        unfold widening
        split
        · rename_i new old hwidened htype
          rw [htype, mergeType_primitive, if_pos hpath] at hm
          obtain ⟨w, hw, hm⟩ := Result.bind_eq_ok_iff.mp hm
          cases hm
          cases hwidened
          rw [isPartition_congr hname, (mergePrimitive_ok hw).2] at hpartition
          cases hpartition
        · rfl
      rw [if_pos rfl, if_pos rfl, hnone, nil_append]
      refine ih hpath j _ (List.getElem?_set_self hlt) ?_
      unfold widenField
      split <;> exact hpartition
    · rw [if_neg hij, nil_append]
      refine ih hpath i f ?_ hpartition
      rw [List.getElem?_set_ne hij]
      exact hf

variable {data : List ArrowField}

theorem Retyped.of_nil (h : Retyped py false c [] d) (partition : Bool) :
    Retyped py partition c [] d := by
  obtain ⟨hname, htrail, hhistory⟩ := h
  rw [map_nil, append_nil] at hhistory
  obtain ⟨name, type, history⟩ := d
  cases htrail
  cases hname
  cases hhistory
  exact .refl py partition c

theorem changes_of_partition {r : Merged (List Field)}
    (h : mergeFields py state state.schema.fields "" false data = .ok r)
    (hc : (DataType.struct state.schema.fields).columnAt p = some c)
    (hpartition : (decide (p.length = 1) && isPartition py state c.name) = true) :
    changesAmong py state state.schema.fields "" false p data = [] := by
  rw [Bool.and_eq_true, decide_eq_true_eq] at hpartition
  obtain ⟨i, rest, f, rfl, hf, hcolumn⟩ := exists_field_of_columnAt hc
  obtain rfl : rest = [] := by simpa using hpartition.1
  have hname : f.name = c.name := by
    rw [FieldOf.columnAt, if_pos rfl] at hcolumn
    unfold FieldOf.column? at hcolumn
    split at hcolumn <;> cases hcolumn
    rfl
  exact merge_partition data _ "" false r h rfl i f hf (hname ▸ hpartition.2)

/-- A merge records the changes of a column's type, and leaves partition columns as they are. -/
theorem merge_retyped {uuid : Int → String} (h : mergeSchema py uuid state data = .ok change)
    (hc : (DataType.struct state.schema.fields).columnAt p = some c) :
    ∃ d, (state.apply change).schema.columnAt p = some d ∧
      Retyped py (decide (p.length = 1) && isPartition py state c.name) c
        (changesAmong py state state.schema.fields "" false p data) d := by
  obtain ⟨m, hm, hcases⟩ := mergeSchema_ok h
  obtain ⟨d, hd, hretyped, hnone⟩ := merge_mergedAt.2 data _ _ _ m hm p c hc
  have hpartition : Retyped py (decide (p.length = 1) && isPartition py state c.name) c
      (changesAmong py state state.schema.fields "" false p data) d := by
    cases hbool : decide (p.length = 1) && isPartition py state c.name with
    | false => exact hretyped
    | true =>
      rw [changes_of_partition hm hc hbool] at hretyped ⊢
      exact hretyped.of_nil true
  obtain ⟨-, hwidened, rfl⟩ | ⟨-, -, -, ⟨-, hmetadata⟩ | ⟨-, highest, -, hmetadata⟩⟩ := hcases
  · rw [hnone hwidened, schema_apply_none rfl]
    exact ⟨c, columnAt_fields hc, .refl py _ c⟩
  · rw [schema_apply hmetadata]
    exact ⟨d, hd, hpartition⟩
  · rw [schema_apply hmetadata]
    simp only
    rw [columnAt_assignAt]
    exact ⟨d, hd, hpartition⟩

end

end DeltaSwamp.Metadata
