import DeltaSwamp.Predicate.Builder

/-!
# Comparisons mean what SQL's do

The two sides the builder pairs have the values of the operands, and its
comparison of them is the reference one: NaN equal to itself and above the rest.
-/

namespace DeltaSwamp.Predicate.Builder

open Result

variable {env : Env} {schema : Schema} (row : Row env.lower schema)

/-- What `pair` and `_floating` say of two operands, on a row. -/
structure Paired (left right : Operand) (a b : Term) (float : Bool) (v w : Option Value) :
    Prop where
  values : operandValues env schema row left right = .ok (v, w)
  leftNull : (a.eval env row.get).isNone = v.isNone
  rightNull : (b.eval env row.get).isNone = w.isNone
  compared : ∀ op, compareValues env op (a.eval env row.get) (b.eval env row.get) =
    compareValues env op v w
  floats : float = true → FloatOrNull (a.eval env row.get) ∨ FloatOrNull (b.eval env row.get)
  noFloats : float = false → NotFloat (a.eval env row.get) ∧ NotFloat (b.eval env row.get)

theorem castTerm_eval (cast : Option Prim) (term : Term) :
    (castTerm cast term).eval env row.get = castColumn env.round cast (term.eval env row.get) := by
  cases cast <;> rfl

theorem column_eq_ok {c : Column} {term : Term} {type : Ty}
    (h : column env schema c = .ok (term, type)) :
    ∃ path, resolve env schema c = .ok (path, type) ∧ term = .field path := by
  unfold column at h
  obtain ⟨⟨path, type'⟩, hresolve, h⟩ := bind_eq_ok_iff.mp h
  cases h
  exact ⟨path, hresolve, rfl⟩

section
variable {left right : Column} {l r : Literal} {a b : Term} {float : Bool}

/-- A column and a literal are paired as terms that compare as they do, either way round. -/
theorem pairLiteral_spec (hpair : pairLiteral env schema left r = .ok (a, b))
    (hfloat : floatingLiteral env schema left r = .ok float) :
    ∃ v w, Paired row (.column left) (.literal r) a b float v w ∧
      Paired row (.literal r) (.column left) b a float w v := by
  unfold pairLiteral at hpair
  obtain ⟨⟨term, type⟩, hcolumn, hpair⟩ := bind_eq_ok_iff.mp hpair
  obtain ⟨⟨cast, scalar⟩, hlit, hpair⟩ := bind_eq_ok_iff.mp hpair
  obtain ⟨path, hresolve, rfl⟩ := column_eq_ok hcolumn
  unfold floatingLiteral at hfloat
  rw [hcolumn, ok_bind] at hfloat
  dsimp only at hfloat hlit hpair
  rw [hlit, ok_bind] at hfloat
  cases hpair
  cases hfloat
  have hfloats : anyFloating type (cast, scalar) = true →
      FloatOrNull ((castTerm cast (.field path)).eval env row.get) ∨
        FloatOrNull (scalar.map Scalar.value) := by
    rw [castTerm_eval]
    exact literal_floating row hresolve hlit
  have hnone : anyFloating type (cast, scalar) = false →
      NotFloat ((castTerm cast (.field path)).eval env row.get) ∧
        NotFloat (scalar.map Scalar.value) := by
    rw [castTerm_eval]
    exact literal_not_floating row hresolve hlit
  refine ⟨(castTerm cast (.field path)).eval env row.get, scalar.map Scalar.value,
    ⟨?_, rfl, rfl, fun _ => rfl, hfloats, hnone⟩,
    ⟨?_, rfl, rfl, fun _ => rfl, fun h => (hfloats h).symm, fun h => (hnone h).symm⟩⟩
  · rw [castTerm_eval]
    simp only [operandValues, hresolve, hlit, ok_bind]
    rfl
  · rw [castTerm_eval]
    simp only [operandValues, hresolve, hlit, ok_bind]
    rfl

theorem widen_eval (term : Term) (type : Ty) :
    (widen term type).eval env row.get =
      castColumn env.round (if type.is .float64 then none else some .float64)
        (term.eval env row.get) := by
  unfold widen
  split_ifs <;> rfl

/-- A double of a number; anything else as it is. -/
def double (round : ℚ → Fl) : Value → Value
  | .num q => .float (round q)
  | v => v

theorem widen_value {c : Column} {path : List Text} {type : Ty}
    (hc : resolve env schema c = .ok (path, type)) (htype : type.isNumeric = true) :
    (widen (.field path) type).eval env row.get = (row.get path).map (double env.round) := by
  rw [widen_eval]
  change castColumn _ _ (row.get path) = _
  cases hv : row.get path with
  | none => split_ifs <;> rfl
  | some v =>
    have hholds := column_typed row hc hv
    cases type with
    | struct | nested => cases htype
    | prim t =>
      rcases numeric_cases htype hholds with ⟨x, rfl⟩ | ⟨q, rfl⟩
      · split_ifs <;> rfl
      · rw [if_neg]
        · rfl
        · simp only [Ty.is, decide_eq_true_eq]
          rintro rfl
          cases hholds

theorem double_isFloat {type : Ty} {v : Value} (htype : type.isNumeric = true)
    (hv : type.holds v = true) : (double env.round v).isFloat = true := by
  cases type with
  | struct | nested => cases htype
  | prim t =>
    rcases numeric_cases htype hv with ⟨x, rfl⟩ | ⟨q, rfl⟩ <;> rfl

theorem compareValues_double {v w : Option Value} (h : FloatOrNull v ∨ FloatOrNull w) (op : CmpOp) :
    compareValues env op (v.map (double env.round)) (w.map (double env.round)) =
      compareValues env op v w := by
  cases v with
  | none => rfl
  | some v =>
    cases w with
    | none => rfl
    | some w =>
      have hfloat : v.isFloat = true ∨ w.isFloat = true :=
        h.imp (fun h => h v rfl) (fun h => h w rfl)
      cases v <;> cases w <;> simp_all [Value.isFloat, double, compareValues, Value.sqlOrder]

theorem pair_columns (hpair : pair env schema (.column left) (.column right) = .ok (a, b))
    (hfloat : floating env schema (.column left) (.column right) = .ok float) :
    ∃ v w, Paired row (.column left) (.column right) a b float v w := by
  unfold pair at hpair
  obtain ⟨⟨ta, aType⟩, hleft, hpair⟩ := bind_eq_ok_iff.mp hpair
  obtain ⟨⟨tb, bType⟩, hright, hpair⟩ := bind_eq_ok_iff.mp hpair
  obtain ⟨pa, ha, rfl⟩ := column_eq_ok hleft
  obtain ⟨pb, hb, rfl⟩ := column_eq_ok hright
  simp only [floating, hleft, hright, ok_bind, pure_eq_ok_iff] at hfloat
  dsimp only at hpair
  have hvalues : operandValues env schema row (.column left) (.column right) =
      .ok (row.get pa, row.get pb) := by
    simp only [operandValues, ha, hb, ok_bind]
    rfl
  have hfloats : float = true → FloatOrNull (row.get pa) ∨ FloatOrNull (row.get pb) := by
    intro h
    rw [← hfloat, Bool.or_eq_true] at h
    exact h.imp (column_floatOrNull row ha) (column_floatOrNull row hb)
  refine ⟨row.get pa, row.get pb, ?_⟩
  split_ifs at hpair with hwide
  · simp only [Bool.and_eq_true] at hwide
    cases hpair
    have hfloat : float = true := hfloat.symm.trans hwide.1.1
    have hleft := widen_value row ha hwide.1.2
    have hright := widen_value row hb hwide.2
    refine ⟨hvalues, ?_, ?_, ?_, ?_, ?_⟩
    · rw [hleft, Option.isNone_map]
    · rw [hright, Option.isNone_map]
    · intro op
      rw [hleft, hright]
      exact compareValues_double (hfloats hfloat) op
    · intro _
      rw [hleft]
      left
      intro x hx
      obtain ⟨v, hv, rfl⟩ := Option.map_eq_some_iff.mp hx
      exact double_isFloat hwide.1.2 (column_typed row ha hv)
    · intro h
      rw [hfloat] at h
      cases h
  · cases hpair
    refine ⟨hvalues, rfl, rfl, fun _ => rfl, hfloats, ?_⟩
    intro h
    rw [← hfloat, Bool.or_eq_false_iff] at h
    exact ⟨column_notFloat row ha h.1, column_notFloat row hb h.2⟩

end

section
variable {l : Literal} {scalar : Scalar}

theorem scalarOf_eq_ok {type : Prim} {value : Value} (h : scalarOf l type value = .ok scalar) :
    scalar.type = type ∧ scalar.value = value := by
  unfold scalarOf at h
  split_ifs at h
  cases h
  exact ⟨rfl, rfl⟩

theorem toScalar_isFloat (h : toScalar env l = .ok scalar) : scalar.value.isFloat = l.isDouble := by
  unfold toScalar at h
  cases l with
  | null => cases h
  | boolean | long | double | string | date | timestamp =>
    rw [(scalarOf_eq_ok h).2]
    rfl
  | decimal d =>
    dsimp only at h
    split_ifs at h
    rw [(scalarOf_eq_ok h).2]
    rfl

theorem single_literal {term : Term} (h : single env schema (.literal l) = .ok term) :
    ∃ v, coerce env l none = .ok (none, v) ∧ term = .scalar (v.map Scalar.value) ∧
      ∀ x, v.map Scalar.value = some x → x.isFloat = l.isDouble := by
  unfold single at h
  obtain ⟨⟨cast, v⟩, hcoerce, h⟩ := bind_eq_ok_iff.mp h
  cases h
  unfold coerce at hcoerce
  cases l with
  | null =>
    cases hcoerce
    exact ⟨none, rfl, rfl, fun _ hx => nomatch hx⟩
  | boolean | long | double | decimal | string | date | timestamp =>
    obtain ⟨scalar, hscalar, hcoerce⟩ := bind_eq_ok_iff.mp hcoerce
    cases hcoerce
    refine ⟨some scalar, ?_, rfl, ?_⟩
    · simp only [coerce, hscalar, ok_bind]
      rfl
    · intro x hx
      cases hx
      exact toScalar_isFloat hscalar

end

theorem pair_literals {left right : Literal} {a b : Term} {float : Bool}
    (hpair : pair env schema (.literal left) (.literal right) = .ok (a, b))
    (hfloat : floating env schema (.literal left) (.literal right) = .ok float) :
    ∃ v w, Paired row (.literal left) (.literal right) a b float v w := by
  unfold pair at hpair
  obtain ⟨ta, hleft, hpair⟩ := bind_eq_ok_iff.mp hpair
  obtain ⟨tb, hright, hpair⟩ := bind_eq_ok_iff.mp hpair
  cases hpair
  obtain ⟨v, hv, rfl, hvfloat⟩ := single_literal hleft
  obtain ⟨w, hw, rfl, hwfloat⟩ := single_literal hright
  unfold floating at hfloat
  rw [pure_eq_ok_iff] at hfloat
  refine ⟨v.map Scalar.value, w.map Scalar.value, ?_, rfl, rfl, fun _ => rfl, ?_, ?_⟩
  · simp only [operandValues, hv, hw, ok_bind]
    rfl
  · intro h
    rw [← hfloat, Bool.or_eq_true] at h
    exact h.imp (fun h x hx => (hvfloat x hx).trans h) (fun h x hx => (hwfloat x hx).trans h)
  · intro h
    rw [← hfloat, Bool.or_eq_false_iff] at h
    exact ⟨fun x hx => (hvfloat x hx).trans h.1, fun x hx => (hwfloat x hx).trans h.2⟩

theorem sqlOrder_swap (round : ℚ → Fl) (v w : Value) :
    (v.sqlOrder round w).map Ordering.swap = w.sqlOrder round v := by
  cases v <;> cases w <;> simp [Value.sqlOrder, Fl.sqlOrder, order_swap]

theorem compareValues_comm {v w : Option Value} :
    compareValues env .eq v w = compareValues env .eq w v := by
  cases v with
  | none => cases w <;> rfl
  | some v =>
    cases w with
    | none => rfl
    | some w =>
      rw [compareValues, compareValues, ← sqlOrder_swap, Option.map_map]
      exact congrArg (fun f => Option.map f _) (funext fun o => by cases o <;> rfl)

theorem pair_spec {left right : Operand} {a b : Term} {float : Bool}
    (hpair : pair env schema left right = .ok (a, b))
    (hfloat : floating env schema left right = .ok float) :
    ∃ v w, Paired row left right a b float v w := by
  cases left with
  | column left =>
    cases right with
    | column right => exact pair_columns row hpair hfloat
    | literal right =>
      obtain ⟨v, w, h, -⟩ := pairLiteral_spec row hpair hfloat
      exact ⟨v, w, h⟩
  | literal left =>
    cases right with
    | literal right => exact pair_literals row hpair hfloat
    | column right =>
      unfold pair at hpair
      obtain ⟨⟨b', a'⟩, hliteral, hpair⟩ := bind_eq_ok_iff.mp hpair
      cases hpair
      obtain ⟨v, w, -, h⟩ := pairLiteral_spec row hliteral hfloat
      exact ⟨w, v, h⟩

theorem compare_eval {op : CmpOp} {left right : Operand} {e : Expr}
    (h : compare env schema op left right = .ok e) :
    e.eval env row.get = compareTruth env schema row op left right := by
  unfold compare at h
  obtain ⟨⟨a, b⟩, hpair, h⟩ := bind_eq_ok_iff.mp h
  obtain ⟨float, hfloat, h⟩ := bind_eq_ok_iff.mp h
  obtain ⟨v, w, hpaired⟩ := pair_spec row hpair hfloat
  rw [compareTruth, hpaired.values]
  change _ = compareValues env op v w
  rw [← hpaired.compared]
  cases float with
  | true =>
    cases h
    exact floatCompare_eval rfl rfl (hpaired.floats rfl) op
  | false =>
    cases h
    obtain ⟨ha, hb⟩ := hpaired.noFloats rfl
    exact arrowCompare_eq ha hb op

theorem compareTruth_comm (c : Column) (l : Literal) :
    compareTruth env schema row .eq (.literal l) (.column c) =
      compareTruth env schema row .eq (.column c) (.literal l) := by
  simp only [compareTruth, operandValues]
  cases hc : resolve env schema c with
  | error => rfl
  | ok resolved =>
    simp only [ok_bind]
    cases coerce env l (some resolved.2) with
    | error => rfl
    | ok coerced => exact compareValues_comm

end DeltaSwamp.Predicate.Builder
