import DeltaSwamp.Metadata.Allowed
import DeltaSwamp.Metadata.History

/-!
# A column under type changes

A column of a primitive type by its position: what `alter_column_type` and
`merge_schema` change of it, and that its history records just that.
-/

namespace DeltaSwamp.Metadata

/-- `delta.typeChanges`. -/
def FieldOf.history {α : Type} (f : FieldOf α) : List Json :=
  match f.metadata.lookup typeChanges with
  | some (.arr items) => items
  | _ => []

/-- A column of a primitive type. -/
structure Column where
  name : String
  type : String
  history : List Json
  deriving DecidableEq

def FieldOf.column? (f : Field) : Option Column :=
  match f.type with
  | .primitive type => some ⟨f.name, type, f.history⟩
  | _ => none

def DataType.columnAt (t : DataType) (p : Position) : Option Column :=
  (t.fieldAt p).bind FieldOf.column?

/-- The field itself, or a column inside its type. -/
def FieldOf.columnAt (f : Field) (p : Position) : Option Column :=
  if p = [] then f.column? else f.type.columnAt p

section
variable {t u : DataType} {f f' : Field} {fields : List Field} {p q : Position} {c d : Column}

@[simp] theorem columnAt_nil (t : DataType) : t.columnAt [] = none := by
  cases t <;> rfl

@[simp] theorem columnAt_primitive (name : String) (p : Position) :
    (DataType.primitive name).columnAt p = none := by
  cases p with
  | nil => rfl
  | cons s p => cases s <;> rfl

theorem columnAt_struct (i : Nat) (rest : Position) :
    (DataType.struct fields).columnAt (.field i :: rest) =
      fields[i]?.bind fun f => f.columnAt rest := by
  by_cases hrest : rest = []
  · simp [DataType.columnAt, DataType.fieldAt, FieldOf.columnAt, hrest]
  · simp [DataType.columnAt, DataType.fieldAt, FieldOf.columnAt, hrest, Option.bind_assoc]

theorem exists_field_of_columnAt (h : (DataType.struct fields).columnAt p = some c) :
    ∃ i rest f, p = .field i :: rest ∧ fields[i]? = some f ∧ f.columnAt rest = some c := by
  cases p with
  | nil => simp at h
  | cons s rest =>
    cases s with
    | field i =>
      rw [columnAt_struct] at h
      obtain ⟨f, hf, h⟩ := Option.bind_eq_some_iff.mp h
      exact ⟨i, rest, f, rfl, hf, h⟩
    | element | key | value => cases h

theorem columnAt_fields (h : (DataType.struct t.fields).columnAt p = some c) :
    t.columnAt p = some c := by
  obtain ⟨i, rest, f, rfl, hf, -⟩ := exists_field_of_columnAt h
  cases t with
  | struct fields => exact h
  | primitive name | array e b | map k v b => cases hf

theorem columnAt_struct_fields {i : Nat} {rest : Position}
    (h : t.columnAt (.field i :: rest) = some c) :
    (DataType.struct t.fields).columnAt (.field i :: rest) = some c := by
  cases t with
  | struct fields => exact h
  | primitive name | array e b | map k v b => cases h

theorem fieldAt_of_columnAt (h : t.columnAt p = some c) :
    ∃ f, t.fieldAt p = some f ∧ f.type = .primitive c.type ∧ c = ⟨f.name, c.type, f.history⟩ := by
  obtain ⟨f, hf, h⟩ := Option.bind_eq_some_iff.mp h
  refine ⟨f, hf, ?_⟩
  unfold FieldOf.column? at h
  split at h
  · rename_i type htype
    cases h
    exact ⟨htype, rfl⟩
  · cases h

theorem columnAt_append (hf : t.fieldAt q = some f) (rest : Position) :
    t.columnAt (q ++ rest) = f.columnAt rest := by
  induction q generalizing t with
  | nil => exact absurd rfl (fieldAt_ne_nil hf)
  | cons s q ih =>
    cases t with
    | primitive name => cases s <;> cases hf
    | struct fields =>
      cases s with
      | element | key | value => cases hf
      | field i =>
        rw [List.cons_append, columnAt_struct]
        simp only [DataType.fieldAt] at hf
        split_ifs at hf with hq
        · subst hq
          rw [hf, Option.bind_some, List.nil_append]
        · obtain ⟨g, hg, hf⟩ := Option.bind_eq_some_iff.mp hf
          rw [hg, Option.bind_some, FieldOf.columnAt, if_neg (by simp [hq])]
          exact ih hf
    | array e b =>
      cases s with
      | element => exact ih (t := e) hf
      | field i | key | value => cases hf
    | map k v b =>
      cases s with
      | key => exact ih (t := k) hf
      | value => exact ih (t := v) hf
      | field i | element => cases hf

theorem replaceNth_single {α : Type} {l : List α} {i : Nat} {a b : α} {g : α → List α}
    (ha : l[i]? = some a) (hg : g a = [b]) : replaceNth i g l = l.set i b := by
  obtain ⟨as, bs, rfl, rfl⟩ := exists_split ha
  rw [replaceNth_split, hg]
  simp

/-- What has a field inside it is no column of a primitive type, nor once that field changed. -/
theorem column?_of_fieldAt (hq : (f.type.fieldAt q).isSome) (g : Field → List Field) :
    f.column? = none ∧ FieldOf.column? { f with type := f.type.update g q } = none := by
  cases htype : f.type with
  | primitive name =>
    rw [htype] at hq
    cases q with
    | nil => cases hq
    | cons s q => cases s <;> cases hq
  | struct fields | array e b | map k v b =>
    rw [htype] at hq
    cases q with
    | nil => cases hq
    | cons s q =>
      cases s with
      | field i | element | key | value =>
        simp only [FieldOf.column?, htype, DataType.update, and_self]

/-- A field replaced by another: the columns inside it are the other's, and all others stay. -/
theorem columnAt_update {g : Field → List Field} (hf : t.fieldAt q = some f) (hg : g f = [f'])
    (p : Position) :
    (t.update g q).columnAt p =
      if q <+: p then f'.columnAt (p.drop q.length) else t.columnAt p := by
  induction q generalizing t p with
  | nil => exact absurd rfl (fieldAt_ne_nil hf)
  | cons s q ih =>
    cases p with
    | nil => simp
    | cons s' rest =>
      simp only [List.cons_prefix_cons, List.length_cons, List.drop_succ_cons]
      cases t with
      | primitive name => cases s <;> cases hf
      | struct fields =>
        cases s with
        | element | key | value => cases hf
        | field i =>
          cases s' with
          | element | key | value => simp; rfl
          | field j =>
            simp only [DataType.update, columnAt_struct, Step.field.injEq]
            by_cases hq : q = []
            · subst hq
              simp only [DataType.fieldAt, if_true] at hf
              rw [replaceNth_single hf (by simpa using hg), List.getElem?_set]
              have hlt := (List.getElem?_eq_some_iff.mp hf).1
              by_cases hij : i = j
              · subst hij
                simp [hlt]
              · simp [hij]
            · simp only [DataType.fieldAt, if_neg hq] at hf
              obtain ⟨f₀, hf₀, hf⟩ := Option.bind_eq_some_iff.mp hf
              rw [replaceNth_single hf₀ (by simp [hq]; rfl), List.getElem?_set]
              have hlt := (List.getElem?_eq_some_iff.mp hf₀).1
              by_cases hij : i = j
              · subst hij
                rw [if_pos rfl, if_pos hlt, hf₀, Option.bind_some, Option.bind_some]
                simp only [true_and]
                by_cases hrest : rest = []
                · obtain ⟨hnone, hnone'⟩ := column?_of_fieldAt (f := f₀) (q := q)
                    (by simp [hf]) g
                  simp [hrest, hq, FieldOf.columnAt, hnone, hnone']
                · simp only [FieldOf.columnAt, if_neg hrest]
                  exact ih hf rest
              · simp [hij]
      | array e b =>
        cases s with
        | field i | key | value => cases hf
        | element =>
          cases s' with
          | element =>
            simp only [true_and]
            exact ih hf rest
          | field j | key | value => simp; rfl
      | map k v b =>
        cases s with
        | field i | element => cases hf
        | key =>
          cases s' with
          | key =>
            simp only [true_and]
            exact ih (t := k) hf rest
          | field j | element | value => simp; rfl
        | value =>
          cases s' with
          | value =>
            simp only [true_and]
            exact ih (t := v) hf rest
          | field j | element | key => simp; rfl

theorem history_assign (f : Field) (id : Int) (physical : String) :
    (f.assign id physical).history = f.history := by
  have hid : typeChanges ≠ cmId := by decide
  have hphysical : typeChanges ≠ cmPhysical := by decide
  simp only [FieldOf.history, FieldOf.assign, Fields.lookup_insert, if_neg hid, if_neg hphysical]

theorem columnAt_assigned (physical : String → Int → String) (next : Int)
    (h : ∀ p, (assignType physical f.type (next + 1)).1.columnAt p = f.type.columnAt p)
    (p : Position) : (assigned physical f next).columnAt p = f.columnAt p := by
  unfold FieldOf.columnAt
  split_ifs
  · have hhistory : (assigned physical f next).history = f.history := history_assign _ next _
    unfold FieldOf.column?
    rw [hhistory]
    cases htype : f.type <;> simp [assigned, htype, assignType]
  · exact h p

theorem columnAt_assign (physical : String → Int → String) :
    (∀ (t : DataType) (next : Int) (p : Position),
      (assignType physical t next).1.columnAt p = t.columnAt p) ∧
    ∀ (fs : List Field) (next : Int) (p : Position),
      (DataType.struct (assignIds physical fs next).1).columnAt p =
        (DataType.struct fs).columnAt p := by
  refine DataType.induct
    (P := fun t => ∀ (next : Int) (p : Position),
      (assignType physical t next).1.columnAt p = t.columnAt p)
    (Q := fun fs => ∀ (next : Int) (p : Position),
      (DataType.struct (assignIds physical fs next).1).columnAt p =
        (DataType.struct fs).columnAt p) ?_ ?_ ?_ ?_ ?_ ?_
  · intro name next p
    rfl
  · intro fields ih next p
    exact ih next p
  · intro e b ih next p
    cases p with
    | nil => simp
    | cons s p =>
      cases s with
      | element => exact ih next p
      | field i | key | value => rfl
  · intro k v b ihk ihv next p
    cases p with
    | nil => simp
    | cons s p =>
      cases s with
      | key => exact ihk next p
      | value => exact ihv _ p
      | field i | element => rfl
  · intro next p
    rfl
  · intro f fs iht ih next p
    rw [assignIds_cons]
    cases p with
    | nil => simp
    | cons s p =>
      cases s with
      | element | key | value => rfl
      | field i =>
        rw [columnAt_struct, columnAt_struct]
        cases i with
        | zero => simpa using columnAt_assigned physical next (iht (next + 1)) p
        | succ i => simpa [columnAt_struct] using ih _ (.field i :: p)

theorem columnAt_assignAt (physical : String → Int → String) (ps : List Position)
    (schema : DataType) (next : Int) (p : Position) :
    (assignAt physical ps schema next).1.columnAt p = schema.columnAt p := by
  induction ps generalizing schema next with
  | nil => rfl
  | cons q ps ih =>
    cases hf : schema.fieldAt q with
    | none =>
      rw [assignAt, hf]
      exact ih schema next
    | some f =>
      have hg : (fun _ => (assignIds physical [f] next).1) f = [assigned physical f next] := by
        rw [assignIds_cons]
        rfl
      rw [assignAt_cons physical hf, ih, columnAt_update hf hg]
      split_ifs with hbelow
      · obtain ⟨rest, rfl⟩ := hbelow
        rw [List.drop_left, columnAt_assigned physical next ((columnAt_assign physical).1 _ _)]
        exact (columnAt_append hf rest).symm
      · rfl

end

end DeltaSwamp.Metadata
