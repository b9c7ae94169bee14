import DeltaSwamp.Predicate.Coerce

/-!
# Arrow expressions

What the row filter is built of and what Arrow makes of it on a row: IEEE
comparisons of floats, Kleene connectives, sets that tell `-0.0` from `0.0`.
-/

namespace DeltaSwamp.Predicate

namespace Fl

/-- An IEEE comparison: every one but `!=` is false of NaN. -/
def ieee : CmpOp → Fl → Fl → Bool
  | .eq, x, y => x.ieeeEq y
  | .ne, x, y => !x.ieeeEq y
  | .lt, x, y => x.ieeeLt y
  | .le, x, y => x.ieeeLt y || x.ieeeEq y
  | .gt, x, y => y.ieeeLt x
  | .ge, x, y => y.ieeeLt x || x.ieeeEq y

end Fl

namespace Value

section
variable (round : ℚ → Fl)

/-- Arrow's comparison of two values; a number meets a float as a double. -/
def arrowCompare (op : CmpOp) : Value → Value → Truth
  | float x, float y => some (Fl.ieee op x y)
  | num a, float y => some (Fl.ieee op (round a) y)
  | float x, num b => some (Fl.ieee op x (round b))
  | v, w => (v.sqlOrder round w).map op.holds

/-- `is_nan`, which only numbers have. -/
def isNan : Value → Truth
  | float x => some x.isNan
  | num _ => some false
  | _ => none

end

def isFloat : Value → Bool
  | float _ => true
  | _ => false

end Value

/-- What an expression reads a value from. -/
inductive Term where
  | field (path : List Text)
  | cast (type : Prim) (term : Term)
  | castText (type : Ty) (term : Term)
  | scalar (value : Option Value)

inductive Expr where
  | scalar (value : Truth)
  | field (path : List Text)
  | compare (op : CmpOp) (left right : Term)
  | isNan (term : Term)
  | isNull (term : Term)
  | isValid (term : Term)
  | isIn (term : Term) (values : List Value)
  | matchLike (term : Term) (pattern : Text) (ignoreCase : Bool)
  | not (e : Expr)
  | and (left right : Expr)
  | or (left right : Expr)
  | ifElse (cond yes no : Expr)
  | coalesce (e other : Expr)

section
variable (env : Env) (get : List Text → Option Value)

def Term.eval : Term → Option Value
  | field path => get path
  | cast type term => term.eval.map (castValue env.round type)
  | castText (.prim type) term => (term.eval.bind (env.castText type)).map .text
  | castText _ _ => none
  | scalar value => value

def arrowCompare (op : CmpOp) : Option Value → Option Value → Truth
  | some v, some w => v.arrowCompare env.round op w
  | _, _ => none

def matchLike (pattern : Text) (ignoreCase : Bool) : Option Value → Truth
  | some (.text s) => some (if ignoreCase then env.ilike s pattern else like s pattern)
  | _ => none

/-- A BOOLEAN value as a condition. -/
def condition : Option Value → Truth
  | some (.bool b) => some b
  | _ => none

def Expr.eval : Expr → Truth
  | scalar value => value
  | field path => condition (get path)
  | compare op left right => arrowCompare env op (left.eval env get) (right.eval env get)
  | isNan term => (term.eval env get).bind Value.isNan
  | isNull term => some (term.eval env get).isNone
  | isValid term => some (term.eval env get).isSome
  | isIn term values => some ((term.eval env get).any fun v => decide (v ∈ values))
  | matchLike term pattern ignoreCase =>
    DeltaSwamp.Predicate.matchLike env pattern ignoreCase (term.eval env get)
  | not e => e.eval.not
  | and left right => left.eval.and right.eval
  | or left right => left.eval.or right.eval
  | ifElse cond yes no => Truth.ifElse cond.eval yes.eval no.eval
  | coalesce e other => Truth.coalesce e.eval other.eval

end

/-- `eq` of `compare`, with NaN equal to itself. -/
def floatEq (a b : Term) : Expr :=
  .or (.compare .eq a b) (.and (.isNan a) (.isNan b))

/-- `lt` of `compare`, with NaN above everything else. -/
def floatLt (a b : Term) : Expr :=
  .or (.compare .lt a b) (.and (.isNan b) (.not (.isNan a)))

def floatCompare (op : CmpOp) (a b : Term) : Expr :=
  match op with
  | .eq => floatEq a b
  | .ne => .not (floatEq a b)
  | .lt => floatLt a b
  | .le => .or (floatLt a b) (floatEq a b)
  | .gt => floatLt b a
  | .ge => .or (floatLt b a) (floatEq a b)

namespace Fl

variable (x y : Fl)

theorem gt_iff_lt_swap : x.sqlOrder y = .gt ↔ y.sqlOrder x = .lt := by
  simp [sqlOrder]

theorem le_iff : (x.sqlOrder y ≠ .gt) ↔ x.sqlOrder y = .lt ∨ x.sqlOrder y = .eq := by
  cases x.sqlOrder y <;> simp

theorem ge_iff : (x.sqlOrder y ≠ .lt) ↔ y.sqlOrder x = .lt ∨ x.sqlOrder y = .eq := by
  rw [← gt_iff_lt_swap]
  cases x.sqlOrder y <;> simp

end Fl

attribute [local simp] Term.eval Expr.eval

section
variable {env : Env} {get : List Text → Option Value} {a b : Term} {v w : Value}

/-- A value as the float a comparison with a float makes of it. -/
def Value.asFloat (round : ℚ → Fl) : Value → Option Fl
  | .float x => some x
  | .num q => some (round q)
  | _ => none

/-- Two values of which one is a float, both numbers. -/
structure FloatPair (env : Env) (v w : Value) (x y : Fl) : Prop where
  left : v.asFloat env.round = some x
  right : w.asFloat env.round = some y
  float : v.isFloat = true ∨ w.isFloat = true

theorem FloatPair.sqlOrder {x y : Fl} (h : FloatPair env v w x y) :
    v.sqlOrder env.round w = some (x.sqlOrder y) := by
  obtain ⟨hl, hr, hf⟩ := h
  cases v <;> cases w <;> cases hl <;> cases hr <;> first | rfl | simp [Value.isFloat] at hf

theorem FloatPair.arrowCompare {x y : Fl} (h : FloatPair env v w x y) (op : CmpOp) :
    v.arrowCompare env.round op w = some (Fl.ieee op x y) := by
  obtain ⟨hl, hr, hf⟩ := h
  cases v <;> cases w <;> cases hl <;> cases hr <;> first | rfl | simp [Value.isFloat] at hf

theorem FloatPair.swap {x y : Fl} (h : FloatPair env v w x y) : FloatPair env w v y x :=
  ⟨h.right, h.left, h.float.symm⟩

theorem isNan_eq {x : Fl} (h : v.asFloat env.round = some x) : v.isNan = some x.isNan := by
  cases v with
  | float y =>
    cases h
    rfl
  | num q =>
    cases h
    simp [Value.isNan, Fl.isNan, env.round_ne_nan q]
  | bool | text | bytes | time | nested => cases h

theorem FloatPair.floatEq_eval {x y : Fl} (h : FloatPair env v w x y)
    (ha : a.eval env get = some v) (hb : b.eval env get = some w) :
    (floatEq a b).eval env get = some (decide (x.sqlOrder y = .eq)) := by
  rw [← Fl.ieeeEq_or_nan]
  simp only [floatEq, Expr.eval, ha, hb, DeltaSwamp.Predicate.arrowCompare, h.arrowCompare,
    Option.bind_some, isNan_eq h.left, isNan_eq h.right, Fl.ieee]
  cases x.ieeeEq y <;> cases x.isNan <;> cases y.isNan <;> rfl

theorem FloatPair.floatLt_eval {x y : Fl} (h : FloatPair env v w x y)
    (ha : a.eval env get = some v) (hb : b.eval env get = some w) :
    (floatLt a b).eval env get = some (decide (x.sqlOrder y = .lt)) := by
  rw [← Fl.ieeeLt_or_nan]
  simp only [floatLt, Expr.eval, ha, hb, DeltaSwamp.Predicate.arrowCompare, h.arrowCompare,
    Option.bind_some, isNan_eq h.left, isNan_eq h.right, Fl.ieee]
  cases x.ieeeLt y <;> cases x.isNan <;> cases y.isNan <;> rfl

theorem FloatPair.floatCompare_eval {x y : Fl} (h : FloatPair env v w x y)
    (ha : a.eval env get = some v) (hb : b.eval env get = some w) (op : CmpOp) :
    (floatCompare op a b).eval env get = some (op.holds (x.sqlOrder y)) := by
  have heq := h.floatEq_eval ha hb
  have hlt := h.floatLt_eval ha hb
  have hgt := h.swap.floatLt_eval hb ha
  cases op with
  | eq => exact heq
  | lt => exact hlt
  | ne =>
    simp only [floatCompare, Expr.eval, heq]
    simp [Truth.not, CmpOp.holds]
  | gt =>
    rw [floatCompare, hgt, CmpOp.holds]
    simp [Fl.gt_iff_lt_swap]
  | le =>
    simp only [floatCompare, Expr.eval, heq, hlt, CmpOp.holds, Fl.le_iff]
    cases x.sqlOrder y <;> rfl
  | ge =>
    simp only [floatCompare, Expr.eval, heq, hgt, CmpOp.holds, Fl.ge_iff]
    cases y.sqlOrder x <;> cases x.sqlOrder y <;> rfl

theorem floatLt_unknown {v w : Option Value} (ha : a.eval env get = v) (hb : b.eval env get = w)
    (hunknown : ∀ op, arrowCompare env op v w = none)
    (hnan : v.bind Value.isNan = none ∨ w.bind Value.isNan = none) :
    (floatLt a b).eval env get = none := by
  simp only [floatLt, Expr.eval, ha, hb, hunknown]
  rcases hnan with h | h
  · rw [h]
    rcases w.bind Value.isNan with _ | _ | _ <;> rfl
  · rw [h]
    rcases v.bind Value.isNan with _ | _ | _ <;> rfl

theorem floatCompare_unknown {v w : Option Value} (ha : a.eval env get = v)
    (hb : b.eval env get = w) (hleft : ∀ op, arrowCompare env op v w = none)
    (hright : ∀ op, arrowCompare env op w v = none)
    (hnan : v.bind Value.isNan = none ∨ w.bind Value.isNan = none) (op : CmpOp) :
    (floatCompare op a b).eval env get = none := by
  have heq : (floatEq a b).eval env get = none := by
    simp only [floatEq, Expr.eval, ha, hb, hleft]
    rcases hnan with h | h
    · rw [h]
      rcases w.bind Value.isNan with _ | _ | _ <;> rfl
    · rw [h]
      rcases v.bind Value.isNan with _ | _ | _ <;> rfl
  have hlt := floatLt_unknown ha hb hleft hnan
  have hgt := floatLt_unknown hb ha hright hnan.symm
  cases op with
  | eq => exact heq
  | lt => exact hlt
  | gt => exact hgt
  | ne =>
    simp only [floatCompare, Expr.eval, heq]
    rfl
  | le =>
    simp only [floatCompare, Expr.eval, heq, hlt]
    rfl
  | ge =>
    simp only [floatCompare, Expr.eval, heq, hgt]
    rfl

theorem not_number (hv : v.isFloat = true) (hw : w.asFloat env.round = none) :
    w.isNan = none ∧ (∀ op, v.arrowCompare env.round op w = none) ∧
      (∀ op, w.arrowCompare env.round op v = none) ∧ v.sqlOrder env.round w = none ∧
      w.sqlOrder env.round v = none := by
  cases v <;> cases w <;> simp_all [Value.isFloat, Value.asFloat, Value.isNan, Value.arrowCompare,
    Value.sqlOrder]

/-- A value that is a float if it is not NULL. -/
def FloatOrNull (v : Option Value) : Prop := ∀ x, v = some x → x.isFloat = true

/-- The comparison built for floats is the one of values, NaN and zeros included. -/
theorem floatCompare_eval {v w : Option Value} (ha : a.eval env get = v) (hb : b.eval env get = w)
    (h : FloatOrNull v ∨ FloatOrNull w) (op : CmpOp) :
    (floatCompare op a b).eval env get = compareValues env op v w := by
  cases v with
  | none =>
    rw [floatCompare_unknown ha hb (fun _ => rfl) (fun _ => by cases w <;> rfl) (.inl rfl)]
    rfl
  | some v =>
    cases w with
    | none =>
      rw [floatCompare_unknown ha hb (fun _ => rfl) (fun _ => rfl) (.inr rfl)]
      rfl
    | some w =>
      have hfloat : v.isFloat = true ∨ w.isFloat = true :=
        h.imp (fun h => h v rfl) (fun h => h w rfl)
      cases hv : v.asFloat env.round with
      | some x =>
        cases hw : w.asFloat env.round with
        | some y =>
          have hpair : FloatPair env v w x y := ⟨hv, hw, hfloat⟩
          rw [hpair.floatCompare_eval ha hb, compareValues, hpair.sqlOrder]
          rfl
        | none =>
          have hv' : v.isFloat = true := hfloat.resolve_right fun h => by
            cases w <;> simp_all [Value.isFloat, Value.asFloat]
          obtain ⟨hnan, hleft, hright, horder, -⟩ := not_number hv' hw
          rw [floatCompare_unknown ha hb hleft hright (.inr hnan), compareValues, horder]
          rfl
      | none =>
        have hw' : w.isFloat = true := hfloat.resolve_left fun h => by
          cases v <;> simp_all [Value.isFloat, Value.asFloat]
        obtain ⟨hnan, hleft, hright, -, horder⟩ := not_number hw' hv
        rw [floatCompare_unknown ha hb hright hleft (.inl hnan), compareValues, horder]
        rfl

/-- A value that is no float. -/
def NotFloat (v : Option Value) : Prop := ∀ x, v = some x → x.isFloat = false

theorem arrowCompare_eq {v w : Option Value} (hv : NotFloat v) (hw : NotFloat w) (op : CmpOp) :
    arrowCompare env op v w = compareValues env op v w := by
  cases v with
  | none => cases w <;> rfl
  | some v =>
    cases w with
    | none => rfl
    | some w =>
      have := hv v rfl
      have := hw w rfl
      cases v <;> cases w <;> simp_all [Value.isFloat, arrowCompare, compareValues,
        Value.arrowCompare]

end

end DeltaSwamp.Predicate
