import DeltaSwamp.Metadata.Marks

/-!
# Features new fields declare

Field metadata an operation takes from its caller, as far as it declares table
features: what of it ends up in the schema.
-/

namespace DeltaSwamp.Metadata

open List

mutual

/-- What the fields inside a type declare. -/
def RawType.declared : RawType → List String
  | .text _ => []
  | .struct none => []
  | .struct (some fields) => rawDeclared fields
  | .array none _ => []
  | .array (some e) _ => e.declared
  | .map (some k) (some v) _ => k.declared ++ v.declared
  | .map _ _ _ => []
  | .other => []

/-- What fields declare at every depth. -/
def rawDeclared : List RawField → List String
  | [] => []
  | ⟨_, some type, _, metadata⟩ :: fs => columnMark metadata ++ type.declared ++ rawDeclared fs
  | ⟨_, none, _, metadata⟩ :: fs => columnMark metadata ++ rawDeclared fs

end

/-- What an Arrow field's own metadata declares. -/
def arrowMark (metadata : List (String × String)) : List String :=
  metadata.flatMap fun m => keyFeatures m.1

mutual

/-- What the fields inside an Arrow type declare. -/
def ArrowType.declared : ArrowType → List String
  | .struct fields => arrowDeclared fields
  | .list _ value _ => value.declared
  | .map key item _ => key.declared ++ item.declared
  | .dictionary value => value.declared
  | _ => []

def arrowDeclared : List ArrowField → List String
  | [] => []
  | ⟨_, type, _, metadata⟩ :: fs => arrowMark metadata ++ type.declared ++ arrowDeclared fs

end

section
variable (py : Python)

mutual

/-- What is declared inside the columns that data has and a type has not. -/
def ArrowType.newlyDeclared (table : DataType) : ArrowType → List String
  | .struct dataFields =>
    match table with
    | .struct fields => newlyDeclared fields dataFields
    | _ => []
  | .list kind value _ =>
    match table with
    | .array e _ => if kind = .list || kind = .largeList then value.newlyDeclared e else []
    | _ => []
  | .map key item _ =>
    match table with
    | .map k v _ => key.newlyDeclared k ++ item.newlyDeclared v
    | _ => []
  | _ => []

def newlyDeclared (fields : List Field) : List ArrowField → List String
  | [] => []
  | ⟨name, type, _, _⟩ :: fs =>
    (match matchIndex py fields name with
      | none => type.declared
      | some i =>
        match fields[i]? with
        | none => []
        | some f => type.newlyDeclared f.type) ++ newlyDeclared fields fs

end

end

section
variable {py : Python}

variable {x : String}

theorem mem_keptMetadata {metadata : List (String × String)}
    (h : x ∈ columnMark (keptMetadata metadata)) : x ∈ arrowMark metadata := by
  have hkeys : ∀ (ms : List (String × String)) (kept : Fields),
      ∀ e ∈ ms.foldl (fun kept m => kept.insert m.1 (.str m.2)) kept,
        e ∈ kept ∨ ∃ m ∈ ms, m.1 = e.1 := by
    intro ms
    induction ms with
    | nil => exact fun kept e he => .inl he
    | cons m ms ih =>
      intro kept e he
      rcases ih _ e he with he | ⟨m', hm', heq⟩
      · rcases mem_cons.mp he with rfl | he
        · exact .inr ⟨m, mem_cons_self, rfl⟩
        · exact .inl (mem_filter.mp he).1
      · exact .inr ⟨m', mem_cons_of_mem _ hm', heq⟩
  obtain ⟨e, he, hx⟩ := mem_flatMap.mp h
  rcases hkeys _ [] e he with he | ⟨m, hm, heq⟩
  · simp at he
  · exact mem_flatMap.mpr ⟨m, (mem_filter.mp hm).1, heq ▸ hx⟩

variable {t : DataType}

theorem leaf_primitive {a : ArrowType} (hleaf : a.IsLeaf) (h : arrowToDelta a = .ok t) :
    ∃ name, t = .primitive name := by
  cases a with
  | struct | list | map | dictionary => exact hleaf.elim
  | decimal precision scale =>
    rw [arrowToDelta] at h
    split_ifs at h
    cases h
    exact ⟨_, rfl⟩
  | other name => cases h
  | _ =>
    cases h
    exact ⟨_, rfl⟩

theorem not_mem_primitive {name : String} :
    x ∉ (DataType.primitive name).markNames noTypeMark columnMark := by
  rw [mem_markNames_primitive]
  exact not_mem_nil

theorem arrow_declared :
    (∀ (a : ArrowType) (t : DataType), arrowToDelta a = .ok t →
      ∀ x ∈ t.markNames noTypeMark columnMark, x ∈ a.declared) ∧
    ∀ (as : List ArrowField) (fs : List Field), arrowToFields as = .ok fs →
      ∀ x ∈ (DataType.struct fs).markNames noTypeMark columnMark, x ∈ arrowDeclared as := by
  refine ArrowType.induct
    (P := fun a => ∀ t : DataType, arrowToDelta a = .ok t →
      ∀ x ∈ t.markNames noTypeMark columnMark, x ∈ a.declared)
    (Q := fun as => ∀ fs : List Field, arrowToFields as = .ok fs →
      ∀ x ∈ (DataType.struct fs).markNames noTypeMark columnMark, x ∈ arrowDeclared as)
    ?_ ?_ ?_ ?_ ?_ ?_ ?_
  · intro a hleaf t h x hx
    obtain ⟨name, rfl⟩ := leaf_primitive hleaf h
    exact absurd hx not_mem_primitive
  · intro value ih t h x hx
    rw [arrowToDelta] at h
    exact ih t h x hx
  · intro fields ih t h x hx
    rw [arrowToDelta] at h
    obtain ⟨fs, hfs, rfl⟩ := Result.map_eq_ok_iff.mp h
    exact ih fs hfs x hx
  · intro kind value b ih t h x hx
    rw [arrowToDelta] at h
    obtain ⟨e, he, rfl⟩ := Result.map_eq_ok_iff.mp h
    exact ih e he x (mem_markNames_array.mp hx)
  · intro key item b ihk ihv t h x hx
    rw [arrowToDelta] at h
    obtain ⟨k, hk, h⟩ := Result.bind_eq_ok_iff.mp h
    obtain ⟨v, hv, h⟩ := Result.bind_eq_ok_iff.mp h
    cases h
    rw [ArrowType.declared, mem_append]
    exact (mem_markNames_map.mp hx).imp (ihk k hk x) (ihv v hv x)
  · intro fs h x hx
    cases h
    simp [DataType.markNames, DataType.marks, fieldMarks] at hx
  · intro a as iht ih fs h x hx
    rw [arrowToFields] at h
    obtain ⟨t, ht, h⟩ := Result.bind_eq_ok_iff.mp h
    obtain ⟨rest, hrest, h⟩ := Result.bind_eq_ok_iff.mp h
    cases h
    rw [arrowDeclared, mem_append, mem_append]
    obtain ⟨f, hf, hx⟩ := mem_markNames_struct.mp hx
    rcases mem_cons.mp hf with rfl | hf
    · rcases mem_append.mp hx with hx | hx
      · exact .inl (.inl (mem_keptMetadata hx))
      · exact .inl (.inr (iht t ht x hx))
    · exact .inr (ih rest hrest x (mem_markNames_struct.mpr ⟨f, hf, hx⟩))

variable {a : ArrowField} {f : Field}

theorem newField_declared {state : TableState} {path : String}
    (h : newField py state a path = .ok f) (hx : x ∈ f.markNames noTypeMark columnMark) :
    x ∈ a.type.declared := by
  unfold newField at h
  obtain ⟨t, ht, h⟩ := Result.bind_eq_ok_iff.mp h
  simp only [Result.guard_eq_ok_iff, Result.pure_eq_ok_iff] at h
  obtain ⟨-, rfl⟩ := h
  rcases mem_append.mp hx with hx | hx
  · have hcomment : keyFeatures "comment" = [] := by decide
    cases hlookup : (keptMetadata a.metadata).lookup "comment" with
    | none => simp [hlookup, columnMark] at hx
    | some c => simp [hlookup, columnMark, hcomment] at hx
  · exact arrow_declared.1 a.type t ht x hx

theorem append_subset_append {as bs cs ds : List String} (h : as ⊆ cs) (h' : bs ⊆ ds) :
    as ++ bs ⊆ cs ++ ds :=
  append_subset.mpr
    ⟨List.Subset.trans h (subset_append_left _ _),
      List.Subset.trans h' (subset_append_right _ _)⟩

theorem newlyDeclared_subset :
    (∀ (a : ArrowType) (t : DataType), a.newlyDeclared py t ⊆ a.declared) ∧
    ∀ (as : List ArrowField) (fields : List Field),
      newlyDeclared py fields as ⊆ arrowDeclared as := by
  refine ArrowType.induct (P := fun a => ∀ t : DataType, a.newlyDeclared py t ⊆ a.declared)
    (Q := fun as => ∀ fields : List Field, newlyDeclared py fields as ⊆ arrowDeclared as)
    ?_ ?_ ?_ ?_ ?_ ?_ ?_
  · intro a hleaf t
    cases a with
    | struct | list | map | dictionary => exact hleaf.elim
    | _ => exact nil_subset _
  · intro value _ t
    exact nil_subset _
  · intro fields ih t
    cases t with
    | struct fs =>
      rw [ArrowType.newlyDeclared, ArrowType.declared]
      exact ih fs
    | _ => exact nil_subset _
  · intro kind value b ih t
    cases t with
    | array e b' =>
      rw [ArrowType.newlyDeclared, ArrowType.declared]
      split_ifs
      · exact ih e
      · exact nil_subset _
    | _ => exact nil_subset _
  · intro key item b ihk ihv t
    cases t with
    | map k v b' =>
      rw [ArrowType.newlyDeclared, ArrowType.declared]
      exact append_subset_append (ihk k) (ihv v)
    | _ => exact nil_subset _
  · intro fields
    exact nil_subset _
  · intro a as iht ih fields
    rw [newlyDeclared, arrowDeclared]
    apply append_subset_append
    · apply List.Subset.trans _ (subset_append_right _ _)
      split
      · exact List.Subset.refl _
      · split
        · exact nil_subset _
        · exact iht _
    · exact ih fields

variable {fields : List Field}

theorem matchIndex_congr {fields' : List Field}
    (h : fields'.map FieldOf.name = fields.map FieldOf.name) (name : String) :
    matchIndex py fields' name = matchIndex py fields name := by
  have hindex : ∀ fs : List Field, matchIndex py fs name =
      (((fs.map FieldOf.name).zipIdx.filter fun e => py.lower e.1 = py.lower name).getLast?).map
        Prod.snd := by
    intro fs
    rw [matchIndex, zipIdx_map, filter_map, List.getLast?_map, Option.map_map]
    rfl
  rw [hindex, hindex, h]

theorem matchIndex_append (fields : List Field) (f : Field) (name : String) :
    matchIndex py (fields ++ [f]) name =
      if py.lower f.name = py.lower name then some fields.length
      else matchIndex py fields name := by
  have hzip : (fields ++ [f]).zipIdx = fields.zipIdx ++ [(f, fields.length)] := by
    simp [zipIdx_append]
  rw [matchIndex, hzip, filter_append]
  split_ifs with hname
  · simp [hname]
  · simp [hname, matchIndex]

theorem newlyDeclared_primitive (a : ArrowType) (name : String) :
    a.newlyDeclared py (.primitive name) = [] := by
  cases a with
  | _ => rfl

theorem newlyDeclared_field (as bs : List Field) {g : Field} (hname : g.name = f.name)
    (htype : ∀ a : ArrowType, a.newlyDeclared py g.type ⊆ a.newlyDeclared py f.type)
    (a : ArrowType) :
    a.newlyDeclared py (.struct (as ++ g :: bs)) ⊆
      a.newlyDeclared py (.struct (as ++ f :: bs)) := by
  cases a with
  | struct data =>
    rw [ArrowType.newlyDeclared, ArrowType.newlyDeclared]
    induction data with
    | nil => exact List.Subset.refl _
    | cons d data ih =>
      rw [newlyDeclared, newlyDeclared]
      refine append_subset_append ?_ ih
      have hnames : (as ++ g :: bs).map FieldOf.name = (as ++ f :: bs).map FieldOf.name := by
        simp [hname]
      rw [matchIndex_congr hnames]
      cases hindex : matchIndex py (as ++ f :: bs) d.name with
      | none => exact List.Subset.refl _
      | some i =>
        obtain ⟨x, hx, -⟩ := matchIndex_some hindex
        rcases getElem?_middle hx with ⟨rfl, rfl⟩ | hsame
        · simp only [List.getElem?_append_right (le_refl _), Nat.sub_self,
            List.getElem?_cons_zero]
          exact htype _
        · simp only [hsame]
          exact List.Subset.refl _
  | _ => exact List.Subset.refl _

theorem newlyDeclared_new (as : List ArrowField) (h : matchIndex py fields a.name = none) :
    newlyDeclared py fields (a :: as) = a.type.declared ++ newlyDeclared py fields as := by
  rw [newlyDeclared]
  simp only [h]

theorem newlyDeclared_old (as : List ArrowField) {i : Nat}
    (h : matchIndex py fields a.name = some i) (hf : fields[i]? = some f) :
    newlyDeclared py fields (a :: as) =
      a.type.newlyDeclared py f.type ++ newlyDeclared py fields as := by
  rw [newlyDeclared]
  simp only [h, hf]

variable {state : TableState}

theorem Grown.newlyDeclared {u : DataType} {ps : List Position} {ws : List String}
    (h : Grown py state t u ps ws) (a : ArrowType) :
    a.newlyDeclared py u ⊆ a.newlyDeclared py t := by
  induction h generalizing a with
  | refl t => exact List.Subset.refl _
  | trans _ _ ih ih' => exact List.Subset.trans (ih' a) (ih a)
  | append fs f arrow path hname _ =>
    cases a with
    | struct data =>
      rw [ArrowType.newlyDeclared, ArrowType.newlyDeclared]
      induction data with
      | nil => exact List.Subset.refl _
      | cons d data ih =>
        rw [Metadata.newlyDeclared, Metadata.newlyDeclared]
        refine append_subset_append ?_ ih
        rw [matchIndex_append]
        split_ifs with hmatch
        · have hnone : matchIndex py fs d.name = none := by
            cases hindex : matchIndex py fs d.name with
            | none => rfl
            | some i =>
              obtain ⟨g, hg, heq⟩ := matchIndex_some hindex
              exact absurd (heq.trans hmatch.symm) (hname g (mem_of_getElem? hg))
          simp only [hnone, List.getElem?_concat_length]
          exact newlyDeclared_subset.1 _ _
        · cases hindex : matchIndex py fs d.name with
          | none => exact List.Subset.refl _
          | some i =>
            obtain ⟨g, hg, -⟩ := matchIndex_some hindex
            obtain ⟨hlt, -⟩ := List.getElem?_eq_some_iff.mp hg
            simp only [List.getElem?_append_left hlt]
            exact List.Subset.refl _
    | _ => exact List.Subset.refl _
  | widen as bs f old new htype _ =>
    refine newlyDeclared_field as bs ?_ ?_ a
    · rfl
    · intro a
      rw [newlyDeclared_primitive]
      exact nil_subset _
  | field as bs f _ ih =>
    refine newlyDeclared_field as bs ?_ ?_ a
    · rfl
    · exact ih
  | element b _ ih =>
    cases a with
    | list kind value nullable =>
      rw [ArrowType.newlyDeclared, ArrowType.newlyDeclared]
      split_ifs
      · exact ih value
      · exact List.Subset.refl _
    | _ => exact List.Subset.refl _
  | key v b _ ih =>
    cases a with
    | map key item nullable =>
      rw [ArrowType.newlyDeclared, ArrowType.newlyDeclared]
      exact append_subset_append (ih key) (List.Subset.refl _)
    | _ => exact List.Subset.refl _
  | value k b _ ih =>
    cases a with
    | map key item nullable =>
      rw [ArrowType.newlyDeclared, ArrowType.newlyDeclared]
      exact append_subset_append (List.Subset.refl _) (ih item)
    | _ => exact List.Subset.refl _

theorem mem_widenField {merged : DataType} {widened : Option String}
    (h : x ∈ (widenField f merged widened).markNames noTypeMark columnMark) :
    x ∈ columnMark f.metadata ∨ x ∈ merged.markNames noTypeMark columnMark := by
  unfold widenField at h
  split at h
  · rcases mem_append.mp h with hx | hx
    · exact .inl (blind_columnMark _ _ _ (.inr (.inr rfl)) hx)
    · exact absurd hx not_mem_primitive
  · exact mem_append.mp h

/-- A merged schema has no mark but its own and those the data declares. -/
theorem merge_declared :
    (∀ (a : ArrowType) (table : DataType) (path : String) (nested : Bool)
      (r : Merged DataType × Option String), mergeType py state table path nested a = .ok r →
      ∀ x ∈ r.1.merged.markNames noTypeMark columnMark,
        x ∈ table.markNames noTypeMark columnMark ∨ x ∈ a.newlyDeclared py table) ∧
    ∀ (data : List ArrowField) (fields : List Field) (path : String) (nested : Bool)
      (r : Merged (List Field)), mergeFields py state fields path nested data = .ok r →
      ∀ x ∈ (DataType.struct r.merged).markNames noTypeMark columnMark,
        x ∈ (DataType.struct fields).markNames noTypeMark columnMark ∨
          x ∈ newlyDeclared py fields data := by
  refine merge_induct
    (P := fun a table _ _ r => ∀ x ∈ r.1.merged.markNames noTypeMark columnMark,
      x ∈ table.markNames noTypeMark columnMark ∨ x ∈ a.newlyDeclared py table)
    (Q := fun data fields _ _ r => ∀ x ∈ (DataType.struct r.merged).markNames noTypeMark columnMark,
      x ∈ (DataType.struct fields).markNames noTypeMark columnMark ∨
        x ∈ newlyDeclared py fields data) ?_ ?_ ?_ ?_ ?_ ?_ ?_ ?_
  · exact fun _ _ _ _ _ _ x hx => .inl hx
  · exact fun _ _ _ _ _ x hx => .inl hx
  · exact fun _ _ _ _ _ ih => ih
  · intro kind value _ e b _ _ m hkind ih x hx
    rw [ArrowType.newlyDeclared, if_pos hkind]
    exact (ih x (mem_markNames_array.mp hx)).imp_left mem_markNames_array.mpr
  · intro key item _ k v b _ _ m n ihk ihv x hx
    rw [ArrowType.newlyDeclared, mem_append]
    rcases mem_markNames_map.mp hx with hx | hx
    · rcases ihk x hx with hx | hx
      · exact .inl (mem_markNames_map.mpr (.inl hx))
      · exact .inr (.inl hx)
    · rcases ihv x hx with hx | hx
      · exact .inl (mem_markNames_map.mpr (.inr hx))
      · exact .inr (.inr hx)
  · exact fun _ _ _ x hx => .inl hx
  · intro a as fields _ _ f m hnone hf ih x hx
    rw [newlyDeclared_new as hnone, mem_append]
    have hname : f.name = a.name := newField_name hf
    have hgrown : Grown py state _ _ _ _ :=
      .append fields f _ _ (hname ▸ matchIndex_none hnone) hf
    rcases ih x hx with hx | hx
    · obtain ⟨g, hg, hmark⟩ := mem_markNames_struct.mp hx
      rcases mem_append.mp hg with hg | hg
      · exact .inl (mem_markNames_struct.mpr ⟨g, hg, hmark⟩)
      · rw [mem_singleton] at hg
        subst hg
        exact .inr (.inl (newField_declared hf hmark))
    · exact .inr (.inr (hgrown.newlyDeclared (.struct as) hx))
  · intro a as fields _ nested i f m n hsome hf hm iht ih x hx
    rw [newlyDeclared_old as hsome hf, mem_append]
    obtain ⟨fs, gs, rfl, rfl⟩ := exists_split hf
    have hset : (fs ++ f :: gs).set fs.length (widenField f m.1.merged m.2) =
        fs ++ widenField f m.1.merged m.2 :: gs := by
      simp
    rw [hset] at ih
    have hgrown := (merge_grown.1 a.type f.type _ nested m hm).struct fs gs
    rcases ih x hx with hx | hx
    · obtain ⟨g, hg, hx⟩ := mem_markNames_struct.mp hx
      have hold : g ∈ fs ∨ g ∈ gs ∨ g = widenField f m.1.merged m.2 := by
        simp only [mem_append, mem_cons] at hg
        tauto
      rcases hold with hg | hg | rfl
      · exact .inl (mem_markNames_struct.mpr ⟨g, by simp [hg], hx⟩)
      · exact .inl (mem_markNames_struct.mpr ⟨g, by simp [hg], hx⟩)
      · rcases mem_widenField hx with hx | hx
        · exact .inl (mem_markNames_struct.mpr ⟨f, by simp, mem_append_left _ hx⟩)
        · rcases iht x hx with hx | hx
          · exact .inl (mem_markNames_struct.mpr ⟨f, by simp, mem_append_right _ hx⟩)
          · exact .inr (.inl hx)
    · exact .inr (.inr (hgrown.newlyDeclared (.struct as) hx))

theorem validPrimitive_ok {name location : String} (h : validPrimitive py name location = .ok t) :
    ∃ n, t = .primitive n := by
  unfold validPrimitive at h
  split_ifs at h
  · cases h
    exact ⟨_, rfl⟩
  · split at h
    · split_ifs at h
      cases h
      exact ⟨_, rfl⟩
    · cases h

mutual

theorem validType_declared (location : String) : ∀ (raw : RawType) (t : DataType),
    validType py location raw = .ok t →
    ∀ x ∈ t.markNames noTypeMark columnMark, x ∈ raw.declared
  | .text name, t, h, x, hx => by
    obtain ⟨n, rfl⟩ := validPrimitive_ok (by simpa [validType] using h)
    exact absurd hx not_mem_primitive
  | .struct none, t, h, x, hx => by
    rw [validType] at h
    cases h
  | .struct (some []), t, h, x, hx => by
    rw [validType] at h
    cases h
  | .struct (some (f :: fs)), t, h, x, hx => by
    rw [validType] at h
    obtain ⟨fields, hfields, rfl⟩ := Result.map_eq_ok_iff.mp h
    rw [RawType.declared]
    exact validFields_declared location (f :: fs) fields hfields x hx
  | .array none _, t, h, x, hx => by
    rw [validType] at h
    cases h
  | .array (some e) _, t, h, x, hx => by
    rw [validType] at h
    obtain ⟨e', he, rfl⟩ := Result.map_eq_ok_iff.mp h
    rw [RawType.declared]
    exact validType_declared _ e e' he x (mem_markNames_array.mp hx)
  | .map (some k) (some v) _, t, h, x, hx => by
    rw [validType] at h
    obtain ⟨k', hk, h⟩ := Result.bind_eq_ok_iff.mp h
    obtain ⟨v', hv, h⟩ := Result.bind_eq_ok_iff.mp h
    cases h
    rw [RawType.declared, mem_append]
    exact (mem_markNames_map.mp hx).imp (validType_declared _ k k' hk x)
      (validType_declared _ v v' hv x)
  | .map none v _, t, h, x, hx => by
    rw [validType] at h
    · cases h
    · simp
  | .map (some k) none _, t, h, x, hx => by
    rw [validType] at h
    · cases h
    · simp
  | .other, t, h, x, hx => by
    rw [validType] at h
    cases h

theorem validFields_declared (location : String) : ∀ (raws : List RawField) (fs : List Field),
    validFields py location raws = .ok fs →
    ∀ x ∈ (DataType.struct fs).markNames noTypeMark columnMark, x ∈ rawDeclared raws
  | [], fs, h, x, hx => by
    rw [validFields] at h
    cases h
    simp [DataType.markNames, DataType.marks, fieldMarks] at hx
  | ⟨some name, some type, nullable, metadata⟩ :: raws, fs, h, x, hx => by
    rw [validFields] at h
    obtain ⟨t, ht, h⟩ := Result.bind_eq_ok_iff.mp h
    obtain ⟨rest, hrest, h⟩ := Result.bind_eq_ok_iff.mp h
    cases h
    rw [rawDeclared, mem_append, mem_append]
    obtain ⟨f, hf, hmark⟩ := mem_markNames_struct.mp hx
    rcases mem_cons.mp hf with rfl | hf
    · rcases mem_append.mp hmark with hx | hx
      · exact .inl (.inl hx)
      · exact .inl (.inr (validType_declared _ type t ht x hx))
    · exact .inr (validFields_declared location raws rest hrest x
        (mem_markNames_struct.mpr ⟨f, hf, hmark⟩))
  | ⟨none, type, nullable, metadata⟩ :: raws, fs, h, x, hx => by
    rw [validFields] at h
    · cases h
    · simp
  | ⟨some name, none, nullable, metadata⟩ :: raws, fs, h, x, hx => by
    rw [validFields] at h
    · cases h
    · simp

end

theorem newColumn_declared {protocol : Protocol} {raw : RawField}
    (h : newColumn py protocol raw = .ok f) (hx : x ∈ f.markNames noTypeMark columnMark) :
    x ∈ rawDeclared [raw] := by
  obtain ⟨name, type, nullable, metadata⟩ := raw
  unfold newColumn at h
  split at h
  · rename_i name' type' hname htype
    obtain ⟨t, ht, h⟩ := Result.bind_eq_ok_iff.mp h
    simp only [Result.guard_eq_ok_iff, Result.pure_eq_ok_iff] at h
    obtain ⟨-, -, rfl⟩ := h
    dsimp only at hname htype
    subst htype
    rw [rawDeclared, mem_append, mem_append]
    left
    rcases mem_append.mp hx with hx | hx
    · left
      obtain ⟨e, he, hx⟩ := mem_flatMap.mp hx
      exact mem_flatMap.mpr ⟨e, (mem_filter.mp he).1, hx⟩
    · exact .inr (validType_declared _ _ t ht x hx)
  · cases h

theorem mem_rawDeclared {raws : List RawField} {raw : RawField} (hraw : raw ∈ raws)
    (hx : x ∈ rawDeclared [raw]) : x ∈ rawDeclared raws := by
  induction raws with
  | nil => simp at hraw
  | cons r raws ih =>
    obtain ⟨name, type, nullable, metadata⟩ := r
    cases type with
    | none =>
      rw [rawDeclared, mem_append]
      rcases mem_cons.mp hraw with rfl | hraw
      · left
        simpa [rawDeclared] using hx
      · exact .inr (ih hraw)
    | some type =>
      rw [rawDeclared, mem_append]
      rcases mem_cons.mp hraw with rfl | hraw
      · left
        simpa [rawDeclared] using hx
      · exact .inr (ih hraw)

end

end DeltaSwamp.Metadata
