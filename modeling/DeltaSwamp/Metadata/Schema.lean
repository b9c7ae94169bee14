import DeltaSwamp.Json

/-!
# Delta schemas

A schema as the JSON tree `schemaString` holds, with the walkers of
`engine/metadata.py`: every nested field, the structs directly inside a type,
and a column found by its path.
-/

namespace DeltaSwamp.Metadata

open List

structure FieldOf (α : Type) where
  name : String
  type : α
  nullable : Bool
  metadata : Fields
  deriving DecidableEq

inductive DataType where
  | primitive (name : String)
  | struct (fields : List (FieldOf DataType))
  | array (element : DataType) (containsNull : Bool)
  | map (key value : DataType) (valueContainsNull : Bool)

abbrev Field := FieldOf DataType

theorem DataType.induct {P : DataType → Prop} {Q : List Field → Prop}
    (primitive : ∀ name, P (.primitive name)) (struct : ∀ fields, Q fields → P (.struct fields))
    (array : ∀ element b, P element → P (.array element b))
    (map : ∀ key value b, P key → P value → P (.map key value b))
    (nil : Q []) (cons : ∀ (f : Field) fs, P f.type → Q fs → Q (f :: fs)) :
    (∀ t, P t) ∧ ∀ fs, Q fs := by
  have htype : ∀ t, P t := fun t => DataType.rec (motive_1 := P) (motive_2 := Q)
    (motive_3 := fun f => P f.type) primitive struct (fun e b => array e b)
    (fun k v b => map k v b) nil (fun f fs => cons f fs) (fun _ _ _ _ h => h) t
  refine ⟨htype, fun fs => ?_⟩
  induction fs with
  | nil => exact nil
  | cons f fs ih => exact cons f fs (htype f.type) ih

mutual

def DataType.beq : DataType → DataType → Bool
  | .primitive a, .primitive b => a == b
  | .struct as, .struct bs => beqFields as bs
  | .array a m, .array b n => a.beq b && m == n
  | .map a c m, .map b d n => a.beq b && c.beq d && m == n
  | _, _ => false

def beqFields : List Field → List Field → Bool
  | [], [] => true
  | ⟨n, a, x, m⟩ :: as, ⟨n', b, y, m'⟩ :: bs =>
    n == n' && a.beq b && x == y && decide (m = m') && beqFields as bs
  | _, _ => false

end

theorem DataType.beq_iff_aux :
    (∀ a b : DataType, a.beq b = true ↔ a = b) ∧
      ∀ as bs : List Field, beqFields as bs = true ↔ as = bs := by
  refine DataType.induct (P := fun a => ∀ b, a.beq b = true ↔ a = b)
    (Q := fun as => ∀ bs, beqFields as bs = true ↔ as = bs) ?_ ?_ ?_ ?_ ?_ ?_
  · intro name b
    cases b <;> simp [DataType.beq]
  · intro fields ih b
    cases b <;> simp [DataType.beq, ih]
  · intro e m ih b
    cases b <;> simp [DataType.beq, ih]
  · intro k v m ihk ihv b
    cases b <;> simp [DataType.beq, ihk, ihv, and_assoc]
  · intro bs
    cases bs <;> simp [beqFields]
  · intro f fs iht ihfs bs
    cases bs with
    | nil => simp [beqFields]
    | cons b bs =>
      obtain ⟨n, t, x, m⟩ := f
      obtain ⟨n', t', x', m'⟩ := b
      simp [beqFields, iht, ihfs, and_assoc]

instance : DecidableEq DataType := fun a b => decidable_of_iff _ (DataType.beq_iff_aux.1 a b)

/-- `_fields`. -/
def DataType.fields : DataType → List Field
  | .struct fields => fields
  | _ => []

@[simp] theorem DataType.fields_struct (fs : List Field) : (DataType.struct fs).fields = fs := rfl

mutual

/-- Every struct field nested anywhere inside a type, depth-first. -/
def DataType.walk : DataType → List Field
  | .primitive _ => []
  | .struct fields => walkFields fields
  | .array e _ => e.walk
  | .map k v _ => k.walk ++ v.walk

def walkFields : List Field → List Field
  | [] => []
  | ⟨n, t, b, m⟩ :: fs => ⟨n, t, b, m⟩ :: (t.walk ++ walkFields fs)

end

@[simp] theorem walkFields_cons (f : Field) (fs : List Field) :
    walkFields (f :: fs) = f :: (f.type.walk ++ walkFields fs) := by
  rw [walkFields]

def cmId : String := "delta.columnMapping.id"

def cmPhysical : String := "delta.columnMapping.physicalName"

def FieldOf.id {α : Type} (f : FieldOf α) : Option Json := f.metadata.lookup cmId

def FieldOf.physical {α : Type} (f : FieldOf α) : Option Json := f.metadata.lookup cmPhysical

/-- `_physical_name`. -/
def physicalName (f : Field) : String :=
  match f.physical with
  | some (.str s) => s
  | _ => f.name

/-- A step down a schema: to a struct's field, or through an array or a map. -/
inductive Step where
  | field (i : Nat)
  | element
  | key
  | value
  deriving DecidableEq

abbrev Position := List Step

/-- The struct a field is in: the nearest field outside it, by its id, and the
way from that field's type to the struct. -/
structure Home where
  parent : Option Json
  inside : List Step
  deriving DecidableEq

def Home.within (home : Home) (step : Step) : Home := ⟨home.parent, home.inside ++ [step]⟩

/-- A field where it stands, without what is inside it. -/
structure Label where
  position : Position
  home : Home
  name : String
  id : Option Json
  physical : Option Json
  deriving DecidableEq

/-- The label of something inside `outer`. -/
def Label.under (outer : Position) (l : Label) : Label := { l with position := outer ++ l.position }

@[simp] theorem Label.under_nil (l : Label) : l.under [] = l := rfl

@[simp] theorem Label.under_under (p q : Position) (l : Label) :
    (l.under q).under p = l.under (p ++ q) := by
  simp [Label.under]

def FieldOf.label {α : Type} (f : FieldOf α) (home : Home) : Label :=
  ⟨[], home, f.name, f.id, f.physical⟩

mutual

/-- The fields of a type at every depth, each where it stands in the type. -/
def DataType.labels (home : Home) : DataType → List Label
  | .primitive _ => []
  | .struct fields => fieldLabels home 0 fields
  | .array e _ => (e.labels (home.within .element)).map (.under [.element])
  | .map k v _ => (k.labels (home.within .key)).map (.under [.key]) ++
      (v.labels (home.within .value)).map (.under [.value])

def fieldLabels (home : Home) (i : Nat) : List Field → List Label
  | [] => []
  | ⟨n, t, b, m⟩ :: fs =>
    (FieldOf.label ⟨n, t, b, m⟩ home :: t.labels ⟨FieldOf.id ⟨n, t, b, m⟩, []⟩).map
      (.under [.field i]) ++ fieldLabels home (i + 1) fs

end

/-- The fields of a schema. -/
def DataType.places (schema : DataType) : List Label := schema.labels ⟨none, []⟩

/-- One field's labels: its own, then those inside it. -/
def FieldOf.labels (f : Field) (home : Home) : List Label :=
  f.label home :: f.type.labels ⟨f.id, []⟩

@[simp] theorem fieldLabels_cons (home : Home) (i : Nat) (f : Field) (fs : List Field) :
    fieldLabels home i (f :: fs) =
      (f.labels home).map (.under [.field i]) ++ fieldLabels home (i + 1) fs := by
  rw [fieldLabels]
  rfl

theorem fieldLabels_append (home : Home) (i : Nat) (fs gs : List Field) :
    fieldLabels home i (fs ++ gs) =
      fieldLabels home i fs ++ fieldLabels home (i + fs.length) gs := by
  induction fs generalizing i with
  | nil => simp [fieldLabels]
  | cons f fs ih =>
    simp only [cons_append, fieldLabels_cons, ih, length_cons, append_assoc]
    congr 3
    omega

def replaceNth {α : Type} (i : Nat) (g : α → List α) (l : List α) : List α :=
  l.take i ++ l[i]?.toList.flatMap g ++ l.drop (i + 1)

variable {α : Type} {i : Nat}

theorem exists_split {l : List α} {a : α} (h : l[i]? = some a) :
    ∃ as bs, l = as ++ a :: bs ∧ as.length = i := by
  obtain ⟨hlt, rfl⟩ := List.getElem?_eq_some_iff.mp h
  refine ⟨l.take i, l.drop (i + 1), ?_, by simp; omega⟩
  rw [← drop_eq_getElem_cons hlt, take_append_drop]

theorem replaceNth_split (as bs : List α) (a : α) (g : α → List α) :
    replaceNth as.length g (as ++ a :: bs) = as ++ g a ++ bs := by
  simp [replaceNth]

theorem replaceNth_none {l : List α} (h : l[i]? = none) (g : α → List α) :
    replaceNth i g l = l := by
  have hlen : l.length ≤ i := List.getElem?_eq_none_iff.mp h
  simp [replaceNth, h, take_of_length_le hlen, drop_of_length_le (Nat.le_succ_of_le hlen)]

/-- The field at a position. -/
def DataType.fieldAt : Position → DataType → Option Field
  | .field i :: rest, .struct fields =>
    if rest = [] then fields[i]? else fields[i]?.bind fun f => f.type.fieldAt rest
  | .element :: rest, .array e _ => e.fieldAt rest
  | .key :: rest, .map k _ _ => k.fieldAt rest
  | .value :: rest, .map _ v _ => v.fieldAt rest
  | _, _ => none

/-- The type with the field at a position replaced by the fields `g` makes of it. -/
def DataType.update (g : Field → List Field) : Position → DataType → DataType
  | .field i :: rest, .struct fields => .struct (replaceNth i (fun f =>
    if rest = [] then g f else [{ f with type := f.type.update g rest }]) fields)
  | .element :: rest, .array e b => .array (e.update g rest) b
  | .key :: rest, .map k v b => .map (k.update g rest) v b
  | .value :: rest, .map k v b => .map k (v.update g rest) b
  | _, t => t

/-- Where a field stands once the field at `removed` is gone. -/
def shift : Position → Position → Position
  | [.field i], .field j :: rest => if i < j then .field (j - 1) :: rest else .field j :: rest
  | s :: removed, s' :: pos => if s = s' then s' :: shift removed pos else s' :: pos
  | _, pos => pos

variable {p : Position}

theorem shift_cons (h : p ≠ []) (s s' : Step) (q : Position) :
    shift (s :: p) (s' :: q) = if s = s' then s' :: shift p q else s' :: q := by
  cases p with
  | nil => exact absurd rfl h
  | cons t p => rw [shift]; simp

theorem shift_last (i j : Nat) (q : Position) :
    shift [.field i] (.field j :: q) =
      if i < j then .field (j - 1) :: q else .field j :: q := by
  rw [shift]

@[simp] theorem shift_nil (p : Position) : shift p [] = [] := by
  cases p with
  | nil => rfl
  | cons s p => cases s <;> cases p <;> rfl

/-- The label once the field at `removed` is gone. -/
def Label.moved (removed : Position) (l : Label) : Label :=
  { l with position := shift removed l.position }

theorem labels_of_mem_fieldLabels {home : Home} {fs : List Field} {l : Label}
    (h : l ∈ fieldLabels home i fs) :
    ∃ (j : Nat) (f : Field) (l' : Label), fs[j]? = some f ∧ l' ∈ f.labels home ∧
      l = l'.under [.field (i + j)] := by
  induction fs generalizing i with
  | nil => simp [fieldLabels] at h
  | cons f fs ih =>
    rw [fieldLabels_cons] at h
    rcases mem_append.mp h with h | h
    · obtain ⟨l', hl', rfl⟩ := mem_map.mp h
      exact ⟨0, f, l', rfl, hl', rfl⟩
    · obtain ⟨j, g, l', hg, hl', rfl⟩ := ih h
      refine ⟨j + 1, g, l', by simpa using hg, hl', ?_⟩
      have hindex : i + 1 + j = i + (j + 1) := by omega
      rw [hindex]

theorem index_of_mem_fieldLabels {home : Home} {fs : List Field} {l : Label}
    (h : l ∈ fieldLabels home i fs) {j : Nat} (hp : .field j :: p <+: l.position) :
    i ≤ j ∧ j < i + fs.length := by
  obtain ⟨k, f, l', hf, -, rfl⟩ := labels_of_mem_fieldLabels h
  obtain ⟨hlt, -⟩ := List.getElem?_eq_some_iff.mp hf
  have hstep := (cons_prefix_cons.mp hp).1
  cases hstep
  omega

/-- Replacing the field at a position: what stands before it and after it stays. -/
structure Split (t : DataType) (p : Position) (f : Field) (home : Home)
    (before after : List Label) (inner : Home) : Prop where
  labels : t.labels home = before ++ (f.labels inner).map (.under p) ++ after
  update : ∀ (g : Field → List Field) (f' : Field), g f = [f'] →
    (t.update g p).labels home = before ++ (f'.labels inner).map (.under p) ++ after
  remove : ∀ g : Field → List Field, g f = [] →
    (t.update g p).labels home = (before ++ after).map (.moved p)
  outside : ∀ l ∈ before ++ after, ¬ p <+: l.position

variable {t : DataType}

theorem Split.under {t' : DataType} {f : Field} {home home' : Home} {before after : List Label}
    {inner : Home} (h : Split t p f home before after inner) (hp : p ≠ []) (s : Step)
    (pre post : List Label) (ht : t'.labels home' = pre ++ (t.labels home).map (.under [s]) ++ post)
    (hupdate : ∀ g : Field → List Field, (t'.update g (s :: p)).labels home' =
      pre ++ ((t.update g p).labels home).map (.under [s]) ++ post)
    (houtside : ∀ l ∈ pre ++ post, ¬ s :: p <+: l.position)
    (hstays : ∀ l ∈ pre ++ post, shift (s :: p) l.position = l.position) :
    Split t' (s :: p) f home' (pre ++ before.map (.under [s])) (after.map (.under [s]) ++ post)
      inner := by
  refine ⟨?_, ?_, ?_, ?_⟩
  · rw [ht, h.labels]
    simp [map_map, Function.comp_def]
  · intro g f' hg
    rw [hupdate, h.update g f' hg]
    simp [map_map, Function.comp_def]
  · intro g hg
    have hmoved : ∀ l : Label, (l.moved p).under [s] = (l.under [s]).moved (s :: p) := by
      intro l
      simp [Label.moved, Label.under, shift_cons hp]
    have hfixed : ∀ ls : List Label, (∀ l ∈ ls, l ∈ pre ++ post) →
        ls.map (Label.moved (s :: p)) = ls := by
      intro ls hls
      refine (map_congr_left fun l hl => ?_).trans (map_id' ls)
      simp [Label.moved, hstays l (hls l hl)]
    rw [hupdate, h.remove g hg]
    simp only [map_append, map_map, Function.comp_def, hmoved, append_assoc]
    rw [hfixed pre fun l hl => mem_append_left _ hl,
      hfixed post fun l hl => mem_append_right _ hl]
  · have hinner : ∀ l ∈ before ++ after, ¬ s :: p <+: (l.under [s]).position := by
      intro l hl hprefix
      exact h.outside l hl (cons_prefix_cons.mp hprefix).2
    intro l hl
    simp only [mem_append, mem_map] at hl
    rcases hl with (hl | ⟨l', hl', rfl⟩) | (⟨l', hl', rfl⟩ | hl)
    · exact houtside l (mem_append_left _ hl)
    · exact hinner l' (mem_append_left _ hl')
    · exact hinner l' (mem_append_right _ hl')
    · exact houtside l (mem_append_right _ hl)

theorem apart_under {s s' : Step} (p : Position) (ls : List Label) (h : s ≠ s') (hp : p ≠ []) :
    ∀ l ∈ ls.map (Label.under [s']),
      ¬ s :: p <+: l.position ∧ shift (s :: p) l.position = l.position := by
  intro l hl
  obtain ⟨l', -, rfl⟩ := mem_map.mp hl
  refine ⟨fun hprefix => h (cons_prefix_cons.mp hprefix).1, ?_⟩
  simp [Label.under, shift_cons hp, h]

section
variable (home : Home) (as bs : List Field) (f : Field)

theorem not_prefix_siblings (p : Position) :
    ∀ l ∈ fieldLabels home 0 as ++ fieldLabels home (as.length + 1) bs,
      ¬ .field as.length :: p <+: l.position := by
  intro l hl hprefix
  rcases mem_append.mp hl with hl | hl
  · have := index_of_mem_fieldLabels hl hprefix
    omega
  · have := index_of_mem_fieldLabels hl hprefix
    omega

theorem shift_siblings {p : Position} (hp : p ≠ []) :
    ∀ l ∈ fieldLabels home 0 as ++ fieldLabels home (as.length + 1) bs,
      shift (.field as.length :: p) l.position = l.position := by
  intro l hl
  have hnot := not_prefix_siblings home as bs [] l hl
  cases hl : l.position with
  | nil => simp
  | cons s q =>
    rw [shift_cons hp, if_neg]
    rintro rfl
    exact hnot (hl ▸ cons_prefix_cons.mpr ⟨rfl, nil_prefix⟩)

theorem labels_struct_split :
    (DataType.struct (as ++ f :: bs)).labels home = fieldLabels home 0 as ++
      ((f.labels home).map (.under [.field as.length]) ++ fieldLabels home (as.length + 1) bs) := by
  simp [DataType.labels, fieldLabels_append]

theorem moved_earlier {i k : Nat} {fs : List Field} (h : i + fs.length ≤ k) :
    (fieldLabels home i fs).map (.moved [.field k]) = fieldLabels home i fs := by
  refine (map_congr_left fun l hl => ?_).trans (map_id' _)
  obtain ⟨j, g, l', hg, -, rfl⟩ := labels_of_mem_fieldLabels hl
  obtain ⟨hlt, -⟩ := List.getElem?_eq_some_iff.mp hg
  simp only [Label.moved, Label.under, singleton_append, shift_last]
  rw [if_neg (by omega)]

theorem moved_later {i k : Nat} {fs : List Field} (h : k ≤ i) :
    (fieldLabels home (i + 1) fs).map (.moved [.field k]) = fieldLabels home i fs := by
  induction fs generalizing i with
  | nil => rfl
  | cons g fs ih =>
    rw [fieldLabels_cons, fieldLabels_cons, map_append, ih (Nat.le_succ_of_le h),
      map_map]
    congr 1
    refine map_congr_left fun l _ => ?_
    simp [Label.moved, Label.under, shift_last, Nat.lt_succ_of_le h]

theorem split_field : Split (.struct (as ++ f :: bs)) [.field as.length] f home
    (fieldLabels home 0 as) (fieldLabels home (as.length + 1) bs) home := by
  refine ⟨?_, ?_, ?_, not_prefix_siblings home as bs []⟩
  · rw [labels_struct_split, append_assoc]
  · intro g f' hg
    simp only [DataType.update, if_true, replaceNth_split, hg]
    rw [append_assoc, singleton_append, labels_struct_split, append_assoc]
  · intro g hg
    simp only [DataType.update, if_true, replaceNth_split, hg, append_nil]
    rw [map_append, moved_earlier home (by omega), moved_later home (le_refl _),
      DataType.labels, fieldLabels_append, Nat.zero_add]

theorem split_inside {g : Field} {p : Position} {before after : List Label} {inner : Home}
    (h : Split g.type p f ⟨g.id, []⟩ before after inner) (hp : p ≠ []) :
    ∃ before after, Split (.struct (as ++ g :: bs)) (.field as.length :: p) f home before after
      inner := by
  refine ⟨_, _, h.under hp (.field as.length)
    (fieldLabels home 0 as ++ [(g.label home).under [.field as.length]])
    (fieldLabels home (as.length + 1) bs) ?_ ?_ ?_ ?_⟩
  · rw [labels_struct_split]
    simp [FieldOf.labels]
  · intro change
    simp only [DataType.update, if_neg hp, replaceNth_split]
    rw [append_assoc, singleton_append, labels_struct_split]
    simp [FieldOf.labels, FieldOf.label, FieldOf.id, FieldOf.physical]
  · intro l hl hprefix
    simp only [mem_append, mem_singleton] at hl
    rcases hl with (hl | rfl) | hl
    · exact not_prefix_siblings home as bs p l (mem_append_left _ hl) hprefix
    · exact hp (prefix_nil.mp (cons_prefix_cons.mp hprefix).2)
    · exact not_prefix_siblings home as bs p l (mem_append_right _ hl) hprefix
  · intro l hl
    simp only [mem_append, mem_singleton] at hl
    rcases hl with (hl | rfl) | hl
    · exact shift_siblings home as bs hp l (mem_append_left _ hl)
    · simp [Label.under, FieldOf.label, shift_cons hp]
    · exact shift_siblings home as bs hp l (mem_append_right _ hl)

end

theorem fieldAt_ne_nil {f : Field} (h : t.fieldAt p = some f) : p ≠ [] := by
  rintro rfl
  cases t <;> simp [DataType.fieldAt] at h

/-- A field's labels stand between those before it and those after it. -/
theorem exists_split_labels {f : Field} (h : t.fieldAt p = some f) (home : Home) :
    ∃ before after inner, Split t p f home before after inner := by
  induction p generalizing t home with
  | nil => cases t <;> simp [DataType.fieldAt] at h
  | cons s rest ih =>
    cases t with
    | primitive n => cases s <;> simp [DataType.fieldAt] at h
    | struct fields =>
      cases s with
      | element | key | value => simp [DataType.fieldAt] at h
      | field i =>
        simp only [DataType.fieldAt] at h
        split_ifs at h with hrest
        · subst hrest
          obtain ⟨as, bs, rfl, rfl⟩ := exists_split h
          exact ⟨_, _, home, split_field home as bs f⟩
        · obtain ⟨g, hg, hinner⟩ := Option.bind_eq_some_iff.mp h
          obtain ⟨as, bs, rfl, rfl⟩ := exists_split hg
          obtain ⟨before, after, inner, hsplit⟩ := ih hinner ⟨g.id, []⟩
          obtain ⟨before', after', hsplit⟩ := split_inside home as bs f hsplit hrest
          exact ⟨before', after', inner, hsplit⟩
    | array e b =>
      cases s with
      | field i => simp [DataType.fieldAt] at h
      | key | value => simp [DataType.fieldAt] at h
      | element =>
        obtain ⟨before, after, inner, hsplit⟩ := ih h (home.within .element)
        refine ⟨_, _, inner, hsplit.under (fieldAt_ne_nil h) .element [] [] ?_ ?_ ?_ ?_⟩
        · simp [DataType.labels]
        · intro g
          simp [DataType.labels, DataType.update]
        · simp
        · simp
    | map k v b =>
      cases s with
      | field i => simp [DataType.fieldAt] at h
      | element => simp [DataType.fieldAt] at h
      | key =>
        obtain ⟨before, after, inner, hsplit⟩ := ih h (home.within .key)
        have hrest : rest ≠ [] := fieldAt_ne_nil (t := k) h
        have hapart := apart_under rest (v.labels (home.within .value))
          (show Step.key ≠ .value by simp) hrest
        refine ⟨_, _, inner, hsplit.under hrest .key []
          ((v.labels (home.within .value)).map (.under [.value])) ?_ ?_
          (fun l hl => (hapart l hl).1) (fun l hl => (hapart l hl).2)⟩
        · simp [DataType.labels]
        · intro g
          simp [DataType.labels, DataType.update]
      | value =>
        obtain ⟨before, after, inner, hsplit⟩ := ih h (home.within .value)
        have hrest : rest ≠ [] := fieldAt_ne_nil (t := v) h
        have hapart := apart_under rest (k.labels (home.within .key))
          (show Step.value ≠ .key by simp) hrest
        rw [← append_nil ((k.labels (home.within .key)).map _)] at hapart
        refine ⟨_, _, inner, hsplit.under hrest .value
          ((k.labels (home.within .key)).map (.under [.key])) [] ?_ ?_
          (fun l hl => (hapart l hl).1) (fun l hl => (hapart l hl).2)⟩
        · simp [DataType.labels]
        · intro g
          simp [DataType.labels, DataType.update]

end DeltaSwamp.Metadata
