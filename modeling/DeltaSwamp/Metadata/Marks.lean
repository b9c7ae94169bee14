import DeltaSwamp.Metadata.Growth

/-!
# What a schema asks of its protocol

The features that primitive types need and field metadata declare, each where
it stands in a schema, and which of them a change can bring in.
-/

namespace DeltaSwamp.Metadata

open List

section
variable (prim : String → List String) (own : Fields → List String)

mutual

/-- What `prim` says of each primitive type inside a type and `own` of each field's metadata. -/
def DataType.marks : DataType → List Spot
  | .primitive name => (prim name).map fun x => ([], x)
  | .struct fields => fieldMarks 0 fields
  | .array e _ => e.marks.map (Spot.under .element)
  | .map k v _ => k.marks.map (Spot.under .key) ++ v.marks.map (Spot.under .value)

def fieldMarks (i : Nat) : List Field → List Spot
  | [] => []
  | ⟨_, t, _, m⟩ :: fs => (own m).map (fun x => ([.field i], x)) ++
      t.marks.map (Spot.under (.field i)) ++ fieldMarks (i + 1) fs

end

attribute [simp] DataType.marks

/-- The marks of one field, wherever they stand. -/
def FieldOf.markNames (f : Field) : List String :=
  own f.metadata ++ (f.type.marks prim own).map Prod.snd

def DataType.markNames (t : DataType) : List String := (t.marks prim own).map Prod.snd

end

section
variable {prim : String → List String} {own : Fields → List String}

theorem fieldMarks_cons (i : Nat) (f : Field) (fs : List Field) :
    fieldMarks prim own i (f :: fs) = (own f.metadata).map (fun x => ([.field i], x)) ++
      (f.type.marks prim own).map (Spot.under (.field i)) ++ fieldMarks prim own (i + 1) fs := by
  rw [fieldMarks]

variable {fs : List Field} {s : Spot}

theorem mem_fieldMarks {i : Nat} :
    s ∈ fieldMarks prim own i fs ↔ ∃ (j : Nat) (f : Field), fs[j]? = some f ∧
      ((∃ x ∈ own f.metadata, s = ([.field (i + j)], x)) ∨
        ∃ s' ∈ f.type.marks prim own, s = s'.under (.field (i + j))) := by
  induction fs generalizing i with
  | nil => simp [fieldMarks]
  | cons f fs ih =>
    rw [fieldMarks_cons, mem_append, mem_append, ih]
    constructor
    · rintro ((h | h) | ⟨j, g, hg, h⟩)
      · obtain ⟨x, hx, rfl⟩ := mem_map.mp h
        exact ⟨0, f, rfl, .inl ⟨x, hx, rfl⟩⟩
      · obtain ⟨s', hs', rfl⟩ := mem_map.mp h
        exact ⟨0, f, rfl, .inr ⟨s', hs', rfl⟩⟩
      · have hindex : i + 1 + j = i + (j + 1) := by omega
        rw [hindex] at h
        exact ⟨j + 1, g, by simpa using hg, h⟩
    · rintro ⟨j, g, hg, h⟩
      cases j with
      | zero =>
        simp only [List.getElem?_cons_zero, Option.some.injEq] at hg
        subst hg
        left
        rcases h with ⟨x, hx, rfl⟩ | ⟨s', hs', rfl⟩
        · exact .inl (mem_map_of_mem hx)
        · exact .inr (mem_map_of_mem hs')
      | succ j =>
        have hindex : i + (j + 1) = i + 1 + j := by omega
        rw [hindex] at h
        exact .inr ⟨j, g, by simpa using hg, h⟩

theorem mem_marks_struct :
    s ∈ (DataType.struct fs).marks prim own ↔ ∃ (j : Nat) (f : Field), fs[j]? = some f ∧
      ((∃ x ∈ own f.metadata, s = ([.field j], x)) ∨
        ∃ s' ∈ f.type.marks prim own, s = s'.under (.field j)) := by
  rw [DataType.marks, mem_fieldMarks]
  simp only [Nat.zero_add]

variable {x : String}

theorem mem_markNames_struct :
    x ∈ (DataType.struct fs).markNames prim own ↔ ∃ f ∈ fs, x ∈ f.markNames prim own := by
  constructor
  · intro h
    obtain ⟨s, hs, rfl⟩ := mem_map.mp h
    obtain ⟨j, f, hf, hmark⟩ := mem_marks_struct.mp hs
    refine ⟨f, mem_of_getElem? hf, mem_append.mpr ?_⟩
    rcases hmark with ⟨x, hx, rfl⟩ | ⟨s', hs', rfl⟩
    · exact .inl hx
    · exact .inr (mem_map.mpr ⟨s', hs', rfl⟩)
  · rintro ⟨f, hf, hmark⟩
    obtain ⟨j, hj⟩ := mem_iff_getElem?.mp hf
    rcases mem_append.mp hmark with hx | hx
    · exact mem_map.mpr ⟨_, mem_marks_struct.mpr ⟨j, f, hj, .inl ⟨x, hx, rfl⟩⟩, rfl⟩
    · obtain ⟨s', hs', rfl⟩ := mem_map.mp hx
      exact mem_map.mpr ⟨_, mem_marks_struct.mpr ⟨j, f, hj, .inr ⟨s', hs', rfl⟩⟩, rfl⟩

theorem mem_markNames_array {e : DataType} {b : Bool} :
    x ∈ (DataType.array e b).markNames prim own ↔ x ∈ e.markNames prim own := by
  rw [DataType.markNames, DataType.marks, map_map]
  exact Iff.rfl

theorem mem_markNames_map {k v : DataType} {b : Bool} :
    x ∈ (DataType.map k v b).markNames prim own ↔
      x ∈ k.markNames prim own ∨ x ∈ v.markNames prim own := by
  rw [DataType.markNames, DataType.marks, map_append, map_map, map_map,
    mem_append]
  exact Iff.rfl

theorem mem_markNames_primitive {name : String} :
    x ∈ (DataType.primitive name).markNames prim own ↔ x ∈ prim name := by
  simp [DataType.markNames, DataType.marks]

variable {p : Position} {t : DataType}

/-- A mark after an update was there, or is of what was put in. -/
theorem markNames_update {g : Field → List Field} (h : x ∈ (t.update g p).markNames prim own) :
    x ∈ t.markNames prim own ∨
      ∃ f, t.fieldAt p = some f ∧ ∃ f' ∈ g f, x ∈ f'.markNames prim own := by
  induction p generalizing t with
  | nil => exact .inl h
  | cons s rest ih =>
    cases t with
    | primitive n => cases s <;> exact .inl h
    | struct fields =>
      cases s with
      | element | key | value => exact .inl h
      | field i =>
        cases hfield : fields[i]? with
        | none =>
          rw [DataType.update, replaceNth_none hfield] at h
          exact .inl h
        | some f =>
          obtain ⟨as, bs, rfl, rfl⟩ := exists_split hfield
          rw [DataType.update, replaceNth_split] at h
          obtain ⟨f', hf', hx⟩ := mem_markNames_struct.mp h
          have hold : f' ∈ as ∨ f' ∈ bs →
              x ∈ (DataType.struct (as ++ f :: bs)).markNames prim own := by
            intro hmem
            refine mem_markNames_struct.mpr ⟨f', ?_, hx⟩
            rcases hmem with hmem | hmem <;> simp [hmem]
          rw [mem_append, mem_append] at hf'
          rcases hf' with (hf' | hf') | hf'
          · exact .inl (hold (.inl hf'))
          · by_cases hrest : rest = []
            · rw [if_pos hrest] at hf'
              subst hrest
              exact .inr ⟨f, by simp [DataType.fieldAt], f', hf', hx⟩
            · rw [if_neg hrest, mem_singleton] at hf'
              subst hf'
              have hself : f.markNames prim own ⊆
                  (DataType.struct (as ++ f :: bs)).markNames prim own :=
                fun y hy => mem_markNames_struct.mpr ⟨f, by simp, hy⟩
              rcases mem_append.mp hx with hx | hx
              · exact .inl (hself (mem_append_left _ hx))
              · rcases ih hx with hx | ⟨f'', hat, hnew⟩
                · exact .inl (hself (mem_append_right _ hx))
                · refine .inr ⟨f'', ?_, hnew⟩
                  simp only [DataType.fieldAt, if_neg hrest, hfield, Option.bind_some, hat]
          · exact .inl (hold (.inr hf'))
    | array e b =>
      cases s with
      | field i => exact .inl h
      | key | value => exact .inl h
      | element => exact (ih (mem_markNames_array.mp h)).imp_left mem_markNames_array.mpr
    | map k v b =>
      cases s with
      | field i => exact .inl h
      | element => exact .inl h
      | key =>
        rcases mem_markNames_map.mp h with hx | hx
        · rcases ih hx with hx | hnew
          · exact .inl (mem_markNames_map.mpr (.inl hx))
          · exact .inr hnew
        · exact .inl (mem_markNames_map.mpr (.inr hx))
      | value =>
        rcases mem_markNames_map.mp h with hx | hx
        · exact .inl (mem_markNames_map.mpr (.inl hx))
        · rcases ih hx with hx | hnew
          · exact .inl (mem_markNames_map.mpr (.inr hx))
          · exact .inr hnew

theorem mark_below {f : Field} (hf : t.fieldAt p = some f) (hs : s ∈ t.marks prim own)
    (hp : p <+: s.1) : s.2 ∈ f.markNames prim own := by
  induction p generalizing t s with
  | nil => exact absurd rfl (fieldAt_ne_nil hf)
  | cons step rest ih =>
    cases t with
    | primitive n => cases step <;> simp [DataType.fieldAt] at hf
    | struct fields =>
      cases step with
      | element | key | value => simp [DataType.fieldAt] at hf
      | field i =>
        obtain ⟨j, g, hg, hmark⟩ := mem_marks_struct.mp hs
        simp only [DataType.fieldAt] at hf
        rcases hmark with ⟨x, hx, rfl⟩ | ⟨s', hs', rfl⟩
        · obtain ⟨hstep, hrest⟩ := cons_prefix_cons.mp hp
          cases hstep
          rw [if_pos (prefix_nil.mp hrest), hg, Option.some.injEq] at hf
          exact mem_append_left _ (hf ▸ hx)
        · obtain ⟨hstep, hrest⟩ := cons_prefix_cons.mp hp
          cases hstep
          split_ifs at hf with hempty
          · rw [hg, Option.some.injEq] at hf
            exact mem_append_right _ (mem_map.mpr ⟨s', hf ▸ hs', rfl⟩)
          · rw [hg, Option.bind_some] at hf
            have hx : s'.2 ∈ f.markNames prim own := ih hf hs' hrest
            exact hx
    | array e b =>
      cases step with
      | field i => simp [DataType.fieldAt] at hf
      | key | value => simp [DataType.fieldAt] at hf
      | element =>
        simp only [DataType.marks, mem_map] at hs
        obtain ⟨s', hs', rfl⟩ := hs
        have hx : s'.2 ∈ f.markNames prim own := ih hf hs' (cons_prefix_cons.mp hp).2
        exact hx
    | map k v b =>
      simp only [DataType.marks, mem_append, mem_map] at hs
      cases step with
      | field i => simp [DataType.fieldAt] at hf
      | element => simp [DataType.fieldAt] at hf
      | key =>
        rcases hs with ⟨s', hs', rfl⟩ | ⟨s', -, rfl⟩
        · have hx : s'.2 ∈ f.markNames prim own := ih hf hs' (cons_prefix_cons.mp hp).2
          exact hx
        · exact absurd (cons_prefix_cons.mp hp).1 (by simp)
      | value =>
        rcases hs with ⟨s', -, rfl⟩ | ⟨s', hs', rfl⟩
        · exact absurd (cons_prefix_cons.mp hp).1 (by simp)
        · have hx : s'.2 ∈ f.markNames prim own := ih hf hs' (cons_prefix_cons.mp hp).2
          exact hx

theorem markNames_fieldAt {f : Field} (hf : t.fieldAt p = some f) (hx : x ∈ f.markNames prim own) :
    x ∈ t.markNames prim own := by
  induction p generalizing t with
  | nil => exact absurd rfl (fieldAt_ne_nil hf)
  | cons step rest ih =>
    cases t with
    | primitive n => cases step <;> simp [DataType.fieldAt] at hf
    | struct fields =>
      cases step with
      | element | key | value => simp [DataType.fieldAt] at hf
      | field i =>
        simp only [DataType.fieldAt] at hf
        split_ifs at hf with hempty
        · exact mem_markNames_struct.mpr ⟨f, mem_of_getElem? hf, hx⟩
        · obtain ⟨g, hg, hf⟩ := Option.bind_eq_some_iff.mp hf
          exact mem_markNames_struct.mpr
            ⟨g, mem_of_getElem? hg, mem_append_right _ (ih hf)⟩
    | array e b =>
      cases step with
      | field i => simp [DataType.fieldAt] at hf
      | key | value => simp [DataType.fieldAt] at hf
      | element => exact mem_markNames_array.mpr (ih hf)
    | map k v b =>
      cases step with
      | field i => simp [DataType.fieldAt] at hf
      | element => simp [DataType.fieldAt] at hf
      | key => exact mem_markNames_map.mpr (.inl (ih hf))
      | value => exact mem_markNames_map.mpr (.inr (ih hf))

/-- Marks that the metadata keys the operations write are no part of. -/
def Blind (own : Fields → List String) : Prop :=
  ∀ (m : Fields) (key : String) (value : Json), key = cmId ∨ key = cmPhysical ∨ key = typeChanges →
    own (m.insert key value) ⊆ own m

theorem markNames_assign (hown : Blind own) (physical : String → Int → String) :
    (∀ (t : DataType) (next : Int), ∀ x ∈ (assignType physical t next).1.markNames prim own,
      x ∈ t.markNames prim own) ∧
    ∀ (fs : List Field) (next : Int),
      ∀ x ∈ (DataType.struct (assignIds physical fs next).1).markNames prim own,
        x ∈ (DataType.struct fs).markNames prim own := by
  refine DataType.induct
    (P := fun t => ∀ next : Int, ∀ x ∈ (assignType physical t next).1.markNames prim own,
      x ∈ t.markNames prim own)
    (Q := fun fs => ∀ next : Int,
      ∀ x ∈ (DataType.struct (assignIds physical fs next).1).markNames prim own,
        x ∈ (DataType.struct fs).markNames prim own) ?_ ?_ ?_ ?_ ?_ ?_
  · intro name next x hx
    exact hx
  · intro fields ih next x hx
    rw [assignType] at hx
    exact ih next x hx
  · intro e b ih next x hx
    rw [assignType, mem_markNames_array] at hx
    exact mem_markNames_array.mpr (ih next x hx)
  · intro k v b ihk ihv next x hx
    rw [assignType, mem_markNames_map] at hx
    exact mem_markNames_map.mpr (hx.imp (ihk _ x) (ihv _ x))
  · intro next x hx
    exact hx
  · intro f fs iht ih next x hx
    rw [assignIds_cons] at hx
    obtain ⟨g, hg, hx⟩ := mem_markNames_struct.mp hx
    rcases mem_cons.mp hg with rfl | hg
    · refine mem_markNames_struct.mpr ⟨f, mem_cons_self, mem_append.mpr ?_⟩
      rcases mem_append.mp hx with hx | hx
      · left
        apply hown _ _ _ (.inl rfl)
        exact hown _ _ _ (.inr (.inl rfl)) hx
      · exact .inr (iht _ x hx)
    · obtain ⟨g', hg', hx⟩ := mem_markNames_struct.mp
        (ih _ x (mem_markNames_struct.mpr ⟨g, hg, hx⟩))
      exact mem_markNames_struct.mpr ⟨g', mem_cons_of_mem _ hg', hx⟩

theorem markNames_assignAt (hown : Blind own) {physical : String → Int → String}
    {ps : List Position} {next : Int} (h : x ∈ (assignAt physical ps t next).1.markNames prim own) :
    x ∈ t.markNames prim own := by
  induction ps generalizing t next with
  | nil => exact h
  | cons p ps ih =>
    rw [assignAt] at h
    split at h
    · exact ih h
    · rename_i f hf
      rcases markNames_update (ih h) with hx | ⟨f', hf', g, hg, hx⟩
      · exact hx
      · rw [hf, Option.some.injEq] at hf'
        subst hf'
        have hin := (markNames_assign hown physical).2 [f] next x
          (mem_markNames_struct.mpr ⟨g, hg, hx⟩)
        obtain ⟨g', hg', hx⟩ := mem_markNames_struct.mp hin
        rw [mem_singleton] at hg'
        subst hg'
        exact markNames_fieldAt hf hx

theorem getElem?_middle {α : Type} {as bs : List α} {a x : α} {j : Nat}
    (h : (as ++ a :: bs)[j]? = some x) :
    (j = as.length ∧ x = a) ∨ ∀ b, (as ++ b :: bs)[j]? = some x := by
  rcases Nat.lt_trichotomy j as.length with hj | rfl | hj
  · right
    intro b
    rw [List.getElem?_append_left hj] at h ⊢
    exact h
  · left
    simpa [eq_comm] using h
  · right
    intro b
    rw [List.getElem?_append_right hj.le] at h ⊢
    obtain ⟨k, hk⟩ : ∃ k, j - as.length = k + 1 := ⟨j - as.length - 1, by omega⟩
    rw [hk] at h ⊢
    simpa using h

/-- A mark a merge brings in stands at a new field or inside one, or is of a type that a column
was widened to. -/
theorem Grown.marks {py : Python} {state : TableState} (hown : Blind own) {u : DataType}
    {ps : List Position} {ws : List String} (h : Grown py state t u ps ws)
    (hs : s ∈ u.marks prim own) :
    (∃ p ∈ ps, p <+: s.1) ∨ s ∈ t.marks prim own ∨ ∃ w ∈ ws, s.2 ∈ prim w := by
  induction h generalizing s with
  | refl t => exact .inr (.inl hs)
  | trans _ _ ih ih' =>
    rcases ih' hs with ⟨p, hp, hprefix⟩ | hs | ⟨w, hw, hprim⟩
    · exact .inl ⟨p, mem_append_right _ hp, hprefix⟩
    · rcases ih hs with ⟨p, hp, hprefix⟩ | hs | ⟨w, hw, hprim⟩
      · exact .inl ⟨p, mem_append_left _ hp, hprefix⟩
      · exact .inr (.inl hs)
      · exact .inr (.inr ⟨w, mem_append_left _ hw, hprim⟩)
    · exact .inr (.inr ⟨w, mem_append_right _ hw, hprim⟩)
  | append fs f arrow path _ _ =>
    obtain ⟨j, g, hg, hmark⟩ := mem_marks_struct.mp hs
    by_cases hj : j < fs.length
    · rw [List.getElem?_append_left hj] at hg
      exact .inr (.inl (mem_marks_struct.mpr ⟨j, g, hg, hmark⟩))
    · obtain ⟨hlt, -⟩ := List.getElem?_eq_some_iff.mp hg
      have hindex : j = fs.length := by
        simp at hlt
        omega
      subst hindex
      left
      refine ⟨_, mem_cons_self, ?_⟩
      rcases hmark with ⟨x, -, rfl⟩ | ⟨s', -, rfl⟩
      · exact prefix_refl _
      · exact cons_prefix_cons.mpr ⟨rfl, nil_prefix⟩
  | widen as bs f old new htype _ =>
    obtain ⟨j, g, hg, hmark⟩ := mem_marks_struct.mp hs
    rcases getElem?_middle hg with ⟨rfl, rfl⟩ | hsame
    · rcases hmark with ⟨x, hx, rfl⟩ | ⟨s', hs', rfl⟩
      · right
        left
        have hold : x ∈ own f.metadata := hown _ _ _ (.inr (.inr rfl)) hx
        exact mem_marks_struct.mpr ⟨as.length, f, by simp, .inl ⟨x, hold, rfl⟩⟩
      · right
        right
        have hmem : s'.2 ∈ prim new :=
          mem_markNames_primitive.mp (mem_map.mpr ⟨s', hs', rfl⟩)
        exact ⟨new, mem_singleton_self new, hmem⟩
    · exact .inr (.inl (mem_marks_struct.mpr ⟨j, g, hsame f, hmark⟩))
  | field as bs f _ ih =>
    obtain ⟨j, g, hg, hmark⟩ := mem_marks_struct.mp hs
    rcases getElem?_middle hg with ⟨rfl, rfl⟩ | hsame
    · rcases hmark with ⟨x, hx, rfl⟩ | ⟨s', hs', rfl⟩
      · exact .inr (.inl (mem_marks_struct.mpr ⟨as.length, f, by simp, .inl ⟨x, hx, rfl⟩⟩))
      · rcases ih hs' with ⟨p, hp, hprefix⟩ | hold | ⟨w, hw, hprim⟩
        · exact .inl ⟨_, mem_map_of_mem hp, cons_prefix_cons.mpr ⟨rfl, hprefix⟩⟩
        · exact .inr (.inl (mem_marks_struct.mpr ⟨as.length, f, by simp, .inr ⟨s', hold, rfl⟩⟩))
        · exact .inr (.inr ⟨w, hw, hprim⟩)
    · exact .inr (.inl (mem_marks_struct.mpr ⟨j, g, hsame f, hmark⟩))
  | element b _ ih =>
    simp only [DataType.marks, mem_map] at hs ⊢
    obtain ⟨s', hs', rfl⟩ := hs
    rcases ih hs' with ⟨p, hp, hprefix⟩ | hold | ⟨w, hw, hprim⟩
    · exact .inl ⟨_, ⟨p, hp, rfl⟩, cons_prefix_cons.mpr ⟨rfl, hprefix⟩⟩
    · exact .inr (.inl ⟨s', hold, rfl⟩)
    · exact .inr (.inr ⟨w, hw, hprim⟩)
  | key v b _ ih =>
    simp only [DataType.marks, mem_append, mem_map] at hs ⊢
    rcases hs with ⟨s', hs', rfl⟩ | ⟨s', hs', rfl⟩
    · rcases ih hs' with ⟨p, hp, hprefix⟩ | hold | ⟨w, hw, hprim⟩
      · exact .inl ⟨_, ⟨p, hp, rfl⟩, cons_prefix_cons.mpr ⟨rfl, hprefix⟩⟩
      · exact .inr (.inl (.inl ⟨s', hold, rfl⟩))
      · exact .inr (.inr ⟨w, hw, hprim⟩)
    · exact .inr (.inl (.inr ⟨s', hs', rfl⟩))
  | value k b _ ih =>
    simp only [DataType.marks, mem_append, mem_map] at hs ⊢
    rcases hs with ⟨s', hs', rfl⟩ | ⟨s', hs', rfl⟩
    · exact .inr (.inl (.inl ⟨s', hs', rfl⟩))
    · rcases ih hs' with ⟨p, hp, hprefix⟩ | hold | ⟨w, hw, hprim⟩
      · exact .inl ⟨_, ⟨p, hp, rfl⟩, cons_prefix_cons.mpr ⟨rfl, hprefix⟩⟩
      · exact .inr (.inl (.inr ⟨s', hold, rfl⟩))
      · exact .inr (.inr ⟨w, hw, hprim⟩)

end

/-- What a primitive type needs. -/
def typeMark (lower : String → String) (name : String) : List String :=
  (typeFeature (lower name)).toList

/-- What a field's metadata declares. -/
def columnMark (metadata : Fields) : List String := metadata.flatMap fun m => keyFeatures m.1

def noTypeMark : String → List String := fun _ => []

def noColumnMark : Fields → List String := fun _ => []

theorem typeFeatures_eq (lower : String → String) :
    (∀ t : DataType, t.typeFeatures lower = t.markNames (typeMark lower) noColumnMark) ∧
    ∀ (fs : List Field) (i : Nat), typeFeaturesOf lower fs =
      (fieldMarks (typeMark lower) noColumnMark i fs).map Prod.snd := by
  have hunder : ∀ (ss : List Spot) (s : Step),
      (ss.map (Spot.under s)).map Prod.snd = ss.map Prod.snd := by
    intro ss s
    rw [map_map]
    rfl
  refine DataType.induct
    (P := fun t => t.typeFeatures lower = t.markNames (typeMark lower) noColumnMark)
    (Q := fun fs => ∀ i : Nat, typeFeaturesOf lower fs =
      (fieldMarks (typeMark lower) noColumnMark i fs).map Prod.snd) ?_ ?_ ?_ ?_ ?_ ?_
  · intro name
    simp [DataType.typeFeatures, DataType.markNames, DataType.marks, typeMark]
  · intro fields ih
    rw [DataType.typeFeatures, DataType.markNames, DataType.marks]
    exact ih 0
  · intro e b ih
    rw [DataType.typeFeatures, DataType.markNames, DataType.marks, hunder]
    exact ih
  · intro k v b ihk ihv
    rw [DataType.typeFeatures, DataType.markNames, DataType.marks, map_append, hunder, hunder,
      ihk, ihv]
    rfl
  · intro i
    rfl
  · intro f fs iht ih i
    rw [typeFeaturesOf, fieldMarks_cons, map_append, map_append, hunder, ih (i + 1), iht]
    simp [noColumnMark, DataType.markNames]

theorem walk_marks (own : Fields → List String) :
    (∀ t : DataType, t.walk.flatMap (fun f => own f.metadata) = t.markNames noTypeMark own) ∧
    ∀ (fs : List Field) (i : Nat), (walkFields fs).flatMap (fun f => own f.metadata) =
      (fieldMarks noTypeMark own i fs).map Prod.snd := by
  have hunder : ∀ (ss : List Spot) (s : Step),
      (ss.map (Spot.under s)).map Prod.snd = ss.map Prod.snd := by
    intro ss s
    rw [map_map]
    rfl
  refine DataType.induct
    (P := fun t => t.walk.flatMap (fun f => own f.metadata) = t.markNames noTypeMark own)
    (Q := fun fs => ∀ i : Nat, (walkFields fs).flatMap (fun f => own f.metadata) =
      (fieldMarks noTypeMark own i fs).map Prod.snd) ?_ ?_ ?_ ?_ ?_ ?_
  · intro name
    rfl
  · intro fields ih
    rw [DataType.walk, DataType.markNames, DataType.marks]
    exact ih 0
  · intro e b ih
    rw [DataType.walk, DataType.markNames, DataType.marks, hunder]
    exact ih
  · intro k v b ihk ihv
    rw [DataType.walk, DataType.markNames, DataType.marks, map_append, hunder, hunder,
      flatMap_append, ihk, ihv]
    rfl
  · intro i
    rfl
  · intro f fs iht ih i
    rw [walkFields_cons, flatMap_cons, flatMap_append, fieldMarks_cons, map_append,
      map_append, hunder, ih (i + 1), iht, append_assoc]
    simp [DataType.markNames]

theorem columnFeatures_eq (t : DataType) : columnFeatures t = t.markNames noTypeMark columnMark :=
  (walk_marks columnMark).1 t

theorem blind_columnMark : Blind columnMark := by
  intro m key value hkey x hx
  have hnone : keyFeatures key = [] := by
    rcases hkey with rfl | rfl | rfl
    · decide
    · decide
    · decide
  rw [columnMark, Fields.insert, flatMap_cons, hnone, nil_append] at hx
  obtain ⟨e, he, hx⟩ := mem_flatMap.mp hx
  exact mem_flatMap.mpr ⟨e, (mem_filter.mp he).1, hx⟩

theorem blind_noColumnMark : Blind noColumnMark := by
  intro m key value _ x hx
  exact hx

end DeltaSwamp.Metadata
