import Mathlib.Algebra.Order.BigOperators.Group.Finset
import Mathlib.Data.Finset.Lattice.Fold
import Mathlib.Data.List.Sort
import Mathlib.Data.Rat.Floor
import Mathlib.Order.Interval.Finset.Nat

/-!
# SET lists

`store_cast`, and `assign` of `KernelEngine.update`: the columns of a SET list
computed over a table, and stored where a row is to change.
-/

namespace DeltaSwamp.Rewrite

open List

/-- What Arrow does with the values of its types `τ`. Nulls stay null. -/
structure Arrow (τ ν : Type) where
  null : ν
  isNested : τ → Bool
  isInteger : τ → Bool
  isFloating : τ → Bool
  /-- The scale, of a decimal type. -/
  scale : τ → Option Nat
  placeholder : τ → ν → ν
  trunc : ν → ν
  roundTowardsZero : ν → Option ν
  roundHalfUp : Nat → ν → Option ν
  /-- The cast between two types, value by value; none where there is none. -/
  cast : τ → τ → Option (ν → Option ν)
  placeholder_null : ∀ t, placeholder t null = null
  trunc_null : trunc null = null
  roundTowardsZero_null : roundTowardsZero null = some null
  roundHalfUp_null : ∀ digits, roundHalfUp digits null = some null
  cast_null : ∀ s t f, cast s t = some f → f null = some null

structure Column (τ : Type) where
  name : String
  type : τ
  nullable : Bool
  deriving DecidableEq

abbrev Row (ν : Type) := List ν

section
variable {τ ν : Type} [DecidableEq τ] [DecidableEq ν] (arrow : Arrow τ ν)

/-- What `store_cast` does to a value before the cast. -/
def adjust (s t : τ) (v : ν) : Option ν :=
  let v := if arrow.isNested t then arrow.placeholder t v else v
  if arrow.isInteger t && arrow.isFloating s then some (arrow.trunc v)
  else if arrow.isInteger t && (arrow.scale s).isSome then arrow.roundTowardsZero v
  else
    match arrow.scale t with
    | some digits =>
      if arrow.isFloating s || (arrow.scale s).any fun n => digits < n then
        arrow.roundHalfUp digits v
      else some v
    | none => some v

/-- `store_cast`, of a column of type `s`. -/
def storeCast (s t : τ) (values : List ν) : Option (List ν) :=
  if s = t then some values
  else if values.all fun v => v = arrow.null then some (values.map fun _ => arrow.null)
  else (arrow.cast s t).bind fun f => values.mapM fun v => (adjust arrow s t v).bind f

/-- The right-hand side of an assignment. -/
inductive SetValue (L : Type) where
  | literal (raw : L)
  | column (path : List String)
  /-- SQL beyond the grammar, evaluated by DuckDB. -/
  | computed (text : String)
  deriving DecidableEq

abbrev SetList (L : Type) := List (String × SetValue L)

/-- What a SET list is computed by: Python, Arrow and DuckDB. -/
structure Engine (τ ν L : Type) extends Arrow τ ν where
  lower : String → String
  /-- `pa.array` of one value: its type and the value in it. -/
  ofRaw : L → Option (τ × ν)
  /-- A projection: its type, and its value for a row. -/
  compute : String → Option (τ × (Row ν → Option ν))

variable {L : Type} (engine : Engine τ ν L) (schema : List (Column τ))

/-- `column_index`, after `_canonical_path`. -/
def columnIndex (name : String) : Option Nat :=
  (schema.findIdx? fun c => c.name = name).or
    (schema.findIdx? fun c => engine.lower c.name = engine.lower name)

def valueAt (i : Nat) (r : Row ν) : ν := r.getD i engine.null

/-- A source column stored into a column of type `t`. -/
def source (t : τ) (current : List (Row ν)) : SetValue L → Option (List ν)
  | .computed text =>
    if current = [] then some []
    else (engine.compute text).bind fun projection =>
      (current.mapM projection.2).bind (storeCast engine.toArrow projection.1 t)
  | .column [name] => (columnIndex engine schema name).bind fun j =>
    schema[j]?.bind fun c =>
      storeCast engine.toArrow c.type t (current.map (valueAt engine j))
  | .column _ => none
  | .literal raw =>
    if current = [] then some []
    else (engine.ofRaw raw).bind fun literal =>
      storeCast engine.toArrow literal.1 t (current.map fun _ => literal.2)

/-- The computed values over the rows; they are computed before anything is stored. -/
def evaluate (assignments : SetList L) (current : List (Row ν)) : Bool :=
  assignments.all fun a => match a.2 with
    | .computed text =>
      current.isEmpty || (engine.compute text).any fun projection =>
        current.all fun r => (projection.2 r).isSome
    | _ => true

/-- One assignment over the table `out`: a row to keep stays as it is. -/
def assignOne (rows : List (Row ν × Bool)) (out : List (Row ν)) (a : String × SetValue L) :
    Option (List (Row ν)) :=
  (columnIndex engine schema a.1).bind fun i =>
    schema[i]?.bind fun c =>
      (source engine schema c.type (rows.map Prod.fst) a.2).map fun values =>
        List.zipWith (fun row (o : Row ν × ν) => if row.2 then o.1 else o.1.set i o.2) rows
          (out.zip values)

/-- `assign`, of a table with the rows to keep marked. -/
def assign (assignments : SetList L) (rows : List (Row ν × Bool)) : Option (List (Row ν)) :=
  if evaluate engine assignments (rows.map Prod.fst) then
    assignments.foldlM (assignOne engine schema rows) (rows.map Prod.fst)
  else none

/-- Whether every value can be stored. -/
def stores (s t : τ) (values : List ν) : Bool :=
  s = t || (values.all fun v => v = arrow.null) ||
    (arrow.cast s t).any fun f => values.all fun v => ((adjust arrow s t v).bind f).isSome

/-- A value as it is stored, where it can be. -/
def stored (s t : τ) (v : ν) : ν :=
  if s = t then v
  else ((arrow.cast s t).bind fun f => (adjust arrow s t v).bind f).getD arrow.null

end

section
variable {τ ν : Type} {arrow : Arrow τ ν} {s t : τ}

theorem adjust_null : adjust arrow s t arrow.null = some arrow.null := by
  unfold adjust
  have hplaceholder : (if arrow.isNested t then arrow.placeholder t arrow.null else arrow.null) =
      arrow.null := by
    rw [arrow.placeholder_null, ite_self]
  dsimp only
  rw [hplaceholder, arrow.trunc_null, arrow.roundTowardsZero_null]
  split_ifs
  · rfl
  · rfl
  · cases arrow.scale t with
    | none => rfl
    | some digits =>
      dsimp only
      rw [arrow.roundHalfUp_null, ite_self]

variable [DecidableEq τ]

theorem stored_null : stored arrow s t arrow.null = arrow.null := by
  unfold stored
  split_ifs
  · rfl
  · cases hcast : arrow.cast s t with
    | none => rfl
    | some f =>
      rw [Option.bind_some, adjust_null, Option.bind_some, arrow.cast_null s t f hcast]
      rfl

theorem mapM_eq_ite {α β : Type} (f : α → Option β) (g : α → β)
    (h : ∀ a b, f a = some b → g a = b) (xs : List α) :
    xs.mapM f = if xs.all fun a => (f a).isSome then some (xs.map g) else none := by
  induction xs with
  | nil => rfl
  | cons x xs ih =>
    rw [mapM_cons, ih]
    cases hx : f x with
    | none => simp [hx]
    | some y =>
      have hg := h x y hx
      by_cases hrest : (xs.all fun a => (f a).isSome) = true
      · simp [hx, hrest, hg]
      · simp [hx, hrest]

theorem storeCast_eq [DecidableEq ν] (values : List ν) : storeCast arrow s t values =
    if stores arrow s t values then some (values.map (stored arrow s t)) else none := by
  unfold storeCast stores
  by_cases hsame : s = t
  · have hid : values.map (stored arrow s t) = values := by
      refine (map_congr_left fun v _ => ?_).trans (map_id _)
      rw [stored, if_pos hsame]
      rfl
    rw [if_pos hsame, hid]
    simp [hsame]
  · rw [if_neg hsame]
    by_cases hnull : (values.all fun v => v = arrow.null) = true
    · have hstored : values.map (stored arrow s t) = values.map fun _ => arrow.null := by
        refine map_congr_left fun v hv => ?_
        have hv : v = arrow.null := by simpa using all_eq_true.mp hnull v hv
        rw [hv, stored_null]
      rw [if_pos hnull, hstored]
      simp [hnull]
    · rw [if_neg hnull]
      cases hcast : arrow.cast s t with
      | none => simp [hsame, hnull]
      | some f =>
        rw [Option.bind_some, mapM_eq_ite _ (stored arrow s t)]
        · simp [hsame, hnull]
        · intro v w hvw
          rw [stored, if_neg hsame, hcast, Option.bind_some, hvw]
          rfl

theorem stores_mono [DecidableEq ν] {values more : List ν} (h : stores arrow s t more = true)
    (hsub : values ⊆ more) : stores arrow s t values = true := by
  unfold stores at h ⊢
  simp only [Bool.or_eq_true, decide_eq_true_eq, all_eq_true, Option.any_eq_true] at h ⊢
  rcases h with (hsame | hnull) | ⟨f, hcast, hall⟩
  · exact .inl (.inl hsame)
  · exact .inl (.inr fun v hv => hnull v (hsub hv))
  · exact .inr ⟨f, hcast, fun v hv => hall v (hsub hv)⟩

end

section
variable {τ ν L : Type} [DecidableEq τ] [DecidableEq ν] (engine : Engine τ ν L)
  (schema : List (Column τ))

/-- Whether a source can be stored for all the rows. -/
def sourceStorable (t : τ) (current : List (Row ν)) : SetValue L → Bool
  | .computed text =>
    current.isEmpty || (engine.compute text).any fun projection =>
      (current.all fun r => (projection.2 r).isSome) &&
        stores engine.toArrow projection.1 t
          (current.map fun r => (projection.2 r).getD engine.null)
  | .column [name] => (columnIndex engine schema name).any fun j =>
    schema[j]?.any fun c => stores engine.toArrow c.type t (current.map (valueAt engine j))
  | .column _ => false
  | .literal raw =>
    current.isEmpty || (engine.ofRaw raw).any fun literal =>
      stores engine.toArrow literal.1 t [literal.2]

/-- Whether a SET list can be stored for all the rows. -/
def storable (assignments : SetList L) (current : List (Row ν)) : Bool :=
  evaluate engine assignments current &&
    assignments.all fun a => (columnIndex engine schema a.1).any fun i =>
      schema[i]?.any fun c => sourceStorable engine schema c.type current a.2

/-- What a source stores for one row. -/
def sourceValue (t : τ) (r : Row ν) : SetValue L → ν
  | .computed text => (engine.compute text).elim engine.null fun projection =>
    stored engine.toArrow projection.1 t ((projection.2 r).getD engine.null)
  | .column [name] => (columnIndex engine schema name).elim engine.null fun j =>
    schema[j]?.elim engine.null fun c => stored engine.toArrow c.type t (valueAt engine j r)
  | .column _ => engine.null
  | .literal raw => (engine.ofRaw raw).elim engine.null fun literal =>
    stored engine.toArrow literal.1 t literal.2

/-- One assignment to a row; every source reads the row as it was. -/
def updateOne (r out : Row ν) (a : String × SetValue L) : Row ν :=
  (columnIndex engine schema a.1).elim out fun i =>
    schema[i]?.elim out fun c => out.set i (sourceValue engine schema c.type r a.2)

def updateRow (assignments : SetList L) (r : Row ν) : Row ν :=
  assignments.foldl (updateOne engine schema r) r

end

section
variable {τ ν L : Type} {engine : Engine τ ν L} {schema : List (Column τ)} {t : τ}

variable {current more : List (Row ν)}

theorem evaluate_mono {assignments : SetList L} (h : evaluate engine assignments more = true)
    (hsub : current ⊆ more) : evaluate engine assignments current = true := by
  unfold evaluate at h ⊢
  rw [all_eq_true] at h ⊢
  intro a ha
  have hone := h a ha
  cases hvalue : a.2 with
  | literal raw => rfl
  | column path => rfl
  | computed text =>
    rw [hvalue] at hone
    dsimp only at hone ⊢
    cases current with
    | nil => rfl
    | cons r rest =>
      have hmore : more.isEmpty = false := by
        rw [isEmpty_eq_false_iff]
        exact ne_nil_of_mem (hsub mem_cons_self)
      rw [hmore, Bool.false_or] at hone
      obtain ⟨projection, hcompute, hall⟩ := (Option.any_eq_true _ _).mp hone
      rw [all_eq_true] at hall
      rw [hcompute, Option.any_some, isEmpty_cons, Bool.false_or, all_eq_true]
      exact fun q hq => hall q (hsub hq)

variable [DecidableEq τ] [DecidableEq ν]

theorem source_eq (t : τ) (current : List (Row ν)) (value : SetValue L) :
    source engine schema t current value =
      if sourceStorable engine schema t current value then
        some (current.map fun r => sourceValue engine schema t r value)
      else none := by
  cases value with
  | computed text =>
    by_cases hempty : current = []
    · simp [source, sourceStorable, hempty]
    · cases hcompute : engine.compute text with
      | none => simp [source, sourceStorable, hempty, hcompute]
      | some projection =>
        have hread := mapM_eq_ite projection.2 (fun r => (projection.2 r).getD engine.null)
          (fun r v hv => by rw [hv]; rfl) current
        simp only [source, sourceStorable, hempty, hcompute, if_false, Option.bind_some, hread,
          sourceValue, Option.elim_some, Option.any_some]
        by_cases hall : (current.all fun r => (projection.2 r).isSome) = true
        · simp [hall, hempty, storeCast_eq, Function.comp_def]
        · simp [hall, hempty]
  | literal raw =>
    by_cases hempty : current = []
    · simp [source, sourceStorable, hempty]
    · cases hraw : engine.ofRaw raw with
      | none => simp [source, sourceStorable, hempty, hraw]
      | some literal =>
        have hone : stores engine.toArrow literal.1 t (current.map fun _ => literal.2) =
            stores engine.toArrow literal.1 t [literal.2] := by
          rw [Bool.eq_iff_iff]
          constructor
          · intro h
            exact stores_mono h (by simpa using hempty)
          · intro h
            exact stores_mono h (by simp [subset_def])
        simp only [source, sourceStorable, hempty, hraw, if_false, Option.bind_some,
          storeCast_eq, hone, sourceValue, Option.elim_some, Option.any_some]
        simp [hempty]
  | column path =>
    match path with
    | [] => simp [source, sourceStorable]
    | _ :: _ :: _ => simp [source, sourceStorable]
    | [name] =>
      cases hindex : columnIndex engine schema name with
      | none => simp [source, sourceStorable, hindex]
      | some j =>
        cases hcolumn : schema[j]? with
        | none => simp [source, sourceStorable, hindex, hcolumn]
        | some c =>
          simp [source, sourceStorable, hindex, hcolumn, sourceValue, storeCast_eq,
            Function.comp_def]

/-- The rows of a table with some updated by `f`. -/
def updatedBy (f : Row ν → Row ν) (rows : List (Row ν × Bool)) : List (Row ν) :=
  rows.map fun x => if x.2 then x.1 else f x.1

theorem assignOne_eq (rows : List (Row ν × Bool)) (f : Row ν → Row ν) (a : String × SetValue L) :
    assignOne engine schema rows (updatedBy f rows) a =
      if (columnIndex engine schema a.1).any fun i => schema[i]?.any fun c =>
          sourceStorable engine schema c.type (rows.map Prod.fst) a.2 then
        some (updatedBy (fun r => updateOne engine schema r (f r) a) rows)
      else none := by
  unfold assignOne
  cases hindex : columnIndex engine schema a.1 with
  | none => simp
  | some i =>
    cases hcolumn : schema[i]? with
    | none => simp [hcolumn]
    | some c =>
      simp only [Option.bind_some, hcolumn, source_eq, Option.any_some]
      by_cases hstorable : sourceStorable engine schema c.type (rows.map Prod.fst) a.2 = true
      · rw [if_pos hstorable, if_pos hstorable, Option.map_some, updatedBy, updatedBy,
          map_map, zip_map', zipWith_map_right, zipWith_self]
        congr 1
        refine map_congr_left fun x _ => ?_
        by_cases hkeep : x.2 = true
        · simp [hkeep]
        · simp [hkeep, updateOne, hindex, hcolumn]
      · rw [if_neg hstorable, if_neg hstorable, Option.map_none]

/-- Assignments update row by row where every value can be stored, and fail elsewhere. -/
theorem assign_eq (assignments : SetList L) (rows : List (Row ν × Bool)) :
    assign engine schema assignments rows =
      if storable engine schema assignments (rows.map Prod.fst) then
        some (updatedBy (updateRow engine schema assignments) rows)
      else none := by
  have hloop : ∀ (as : SetList L) (f : Row ν → Row ν),
      as.foldlM (assignOne engine schema rows) (updatedBy f rows) =
        if as.all fun a => (columnIndex engine schema a.1).any fun i => schema[i]?.any fun c =>
            sourceStorable engine schema c.type (rows.map Prod.fst) a.2 then
          some (updatedBy (fun r => as.foldl (updateOne engine schema r) (f r)) rows)
        else none := by
    intro as
    induction as with
    | nil =>
      intro f
      rfl
    | cons a as ih =>
      intro f
      rw [foldlM_cons, assignOne_eq, all_cons]
      cases hone : (columnIndex engine schema a.1).any fun i => schema[i]?.any fun c =>
          sourceStorable engine schema c.type (rows.map Prod.fst) a.2 with
      | false => simp
      | true =>
        simp only [if_true, Option.bind_eq_bind, Option.bind_some, ih, Bool.true_and]
        rfl
  have hstart : rows.map Prod.fst = updatedBy id rows := by
    refine map_congr_left fun x _ => ?_
    rw [id, ite_self]
  unfold assign storable
  cases heval : evaluate engine assignments (rows.map Prod.fst) with
  | false => simp
  | true =>
    rw [if_pos rfl, Bool.true_and]
    conv_lhs => rw [hstart]
    exact hloop assignments id

theorem sourceStorable_mono {value : SetValue L}
    (h : sourceStorable engine schema t more value = true) (hsub : current ⊆ more) :
    sourceStorable engine schema t current value = true := by
  cases value with
  | literal raw =>
    cases current with
    | nil => rfl
    | cons r rest =>
      have hmore : more.isEmpty = false := by
        rw [isEmpty_eq_false_iff]
        exact ne_nil_of_mem (hsub mem_cons_self)
      simpa [sourceStorable, hmore] using h
  | column path =>
    match path with
    | [] => cases h
    | _ :: _ :: _ => cases h
    | [name] =>
      simp only [sourceStorable, Option.any_eq_true] at h ⊢
      obtain ⟨j, hj, c, hc, hstores⟩ := h
      exact ⟨j, hj, c, hc, stores_mono hstores (map_subset _ hsub)⟩
  | computed text =>
    cases current with
    | nil => rfl
    | cons r rest =>
      have hmore : more.isEmpty = false := by
        rw [isEmpty_eq_false_iff]
        exact ne_nil_of_mem (hsub mem_cons_self)
      simp only [sourceStorable, hmore, Bool.false_or, Option.any_eq_true, Bool.and_eq_true,
        all_eq_true] at h
      obtain ⟨projection, hcompute, hall, hstores⟩ := h
      simp only [sourceStorable, isEmpty_cons, Bool.false_or, Option.any_eq_true,
        Bool.and_eq_true, all_eq_true]
      exact ⟨projection, hcompute, fun q hq => hall q (hsub hq),
        stores_mono hstores (map_subset _ hsub)⟩

theorem storable_mono {assignments : SetList L} (h : storable engine schema assignments more = true)
    (hsub : current ⊆ more) : storable engine schema assignments current = true := by
  unfold storable at h ⊢
  rw [Bool.and_eq_true, all_eq_true] at h ⊢
  refine ⟨evaluate_mono h.1 hsub, fun a ha => ?_⟩
  have hone := h.2 a ha
  simp only [Option.any_eq_true] at hone ⊢
  obtain ⟨i, hi, c, hc, hstorable⟩ := hone
  exact ⟨i, hi, c, hc, sourceStorable_mono hstorable hsub⟩

end

end DeltaSwamp.Rewrite
