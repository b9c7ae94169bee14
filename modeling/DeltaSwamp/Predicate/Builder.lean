import DeltaSwamp.Dict
import DeltaSwamp.Predicate.Arrow
import DeltaSwamp.Result

/-!
# The row filter

`_ArrowBuilder`: the Arrow expression of a predicate. Equalities of an OR are
regrouped by column, `IN` becomes one lookup, and children fold into a balanced tree.
-/

namespace DeltaSwamp.Predicate

namespace Ty

def isFloating : Ty → Bool
  | prim t => t.isFloating
  | _ => false

def isNumeric : Ty → Bool
  | prim t => t.isNumeric
  | _ => false

def isText : Ty → Bool
  | prim t => t.isText
  | _ => false

/-- Whether a type is that primitive one. -/
def is : Ty → Prim → Bool
  | prim t, t' => t = t'
  | _, _ => false

end Ty

def Operand.literal? : Operand → Option Literal
  | .literal l => some l
  | .column _ => none

/-- A column compared for equality with a literal, on either side. -/
def Node.equality : Node → Option (Column × Literal)
  | .leaf (.compare .eq (.column c) (.literal l)) => some (c, l)
  | .leaf (.compare .eq (.literal l) (.column c)) => some (c, l)
  | _ => none

/-- The results of all, or the first error. -/
def collect {α : Type} : List (Except PredicateError α) → Except PredicateError (List α)
  | [] => .ok []
  | x :: xs => do return (← x) :: (← collect xs)

/-- `_balanced`, which needs an item. -/
def fold (combine : Expr → Expr → Expr) (items : List Expr) : Except PredicateError Expr :=
  match balanced combine items with
  | some e => .ok e
  | none => .error .empty

/-- The literals each column is compared with, by column. -/
def groups (equalities : List (Column × Literal)) : Dict Column (List Literal) :=
  equalities.foldl (fun d e => d.set e.1 ((d.get e.1).getD [] ++ [e.2])) []

namespace Builder

section
variable (env : Env) (schema : Schema)

def column (c : Column) : Except PredicateError (Term × Ty) := do
  let resolved ← resolve env schema c
  return (.field resolved.1, resolved.2)

def single : Operand → Except PredicateError Term
  | .column c => do return (← column env schema c).1
  | .literal l => do return .scalar ((← coerce env l none).2.map Scalar.value)

/-- `expr.cast(cast)`, where there is a cast. -/
def castTerm (cast : Option Prim) (term : Term) : Term :=
  match cast with
  | some type => .cast type term
  | none => term

/-- A DOUBLE of a number. -/
def widen (term : Term) (type : Ty) : Term := if type.is .float64 then term else .cast .float64 term

def pairLiteral (c : Column) (l : Literal) : Except PredicateError (Term × Term) := do
  let (expr, type) ← column env schema c
  let (cast, scalar) ← coerce env l (some type)
  return (castTerm cast expr, .scalar (scalar.map Scalar.value))

def pair : Operand → Operand → Except PredicateError (Term × Term)
  | .column left, .column right => do
    let (a, aType) ← column env schema left
    let (b, bType) ← column env schema right
    if (aType.isFloating || bType.isFloating) && aType.isNumeric && bType.isNumeric then
      return (widen a aType, widen b bType)
    return (a, b)
  | .column left, .literal right => pairLiteral env schema left right
  | .literal left, .column right => do
    let (b, a) ← pairLiteral env schema right left
    return (a, b)
  | .literal left, .literal right => do
    return (← single env schema (.literal left), ← single env schema (.literal right))

/-- Whether the cast column or the scalar is floating; a NULL has the column's type. -/
def anyFloating (type : Ty) (coerced : Coerced) : Bool :=
  coerced.1.elim type.isFloating Prim.isFloating ||
    coerced.2.elim type.isFloating fun scalar => scalar.type.isFloating

/-- Whether a column and a literal are compared as floats. -/
def floatingLiteral (c : Column) (l : Literal) : Except PredicateError Bool := do
  let (_, type) ← column env schema c
  return anyFloating type (← coerce env l (some type))

/-- `_floating` -/
def floating : Operand → Operand → Except PredicateError Bool
  | .column left, .column right => do
    return (← column env schema left).2.isFloating || (← column env schema right).2.isFloating
  | .column left, .literal right => floatingLiteral env schema left right
  | .literal left, .column right => floatingLiteral env schema right left
  | .literal left, .literal right => return left.isDouble || right.isDouble

def compare (op : CmpOp) (left right : Operand) : Except PredicateError Expr := do
  let (a, b) ← pair env schema left right
  if ← floating env schema left right then return floatCompare op a b
  return .compare op a b

/-- The scalars of literals that all have a column's type; NULL has none. -/
def scalarsOf (type : Ty) : List Literal → Except PredicateError (Option (List Scalar))
  | [] => return some []
  | .null :: rest => scalarsOf type rest
  | lit :: rest => do
    match ← coerce env lit (some type) with
    | (none, some scalar) =>
      if type.is scalar.type then return (← scalarsOf type rest).map (scalar :: ·)
      return none
    | _ => return none

/-- The values of a lookup: with both zeros, which it tells apart, if there is one. -/
def withZeros (type : Ty) (values : List Value) : List Value :=
  if type.isFloating && values.any (fun v => v.plusZero = .float (.fin 0)) then
    values ++ [.float (.fin 0), .float .negZero]
  else values

def isInLookup (expr : Term) (values : List Value) (hasNull : Bool) : Expr :=
  .ifElse (.isValid expr)
    (.ifElse (.isIn expr values) (.scalar (some true))
      (.scalar (if hasNull then none else some false)))
    (.scalar none)

def membership (target : Operand) (items : List Operand) : Except PredicateError (Option Expr) :=
  match target, items.mapM Operand.literal? with
  | .column c, some literals => do
    let (expr, type) ← column env schema c
    match ← scalarsOf env type literals with
    | none => return none
    | some [] => return some (.ifElse (.isValid expr) (.scalar none) (.scalar none))
    | some (scalar :: rest) =>
      let values := withZeros type ((scalar :: rest).map Scalar.value)
      if ← env.takes scalar.type values then
        return some (isInLookup expr values (literals.contains .null))
      return none
  | _, _ => return none

/-- The lookup of a group of several. -/
def groupLookup (c : Column) (literals : List Literal) : Except PredicateError (Option Expr) :=
  if 1 < literals.length then membership env schema (.column c) (literals.map .literal)
  else .ok none

/-- One group of an OR: a lookup or, failing it, its equalities. -/
def lookups (c : Column) (literals : List Literal) : Except PredicateError (List Expr) := do
  match ← groupLookup env schema c literals with
  | some lookup => return [lookup]
  | none => collect (literals.map fun l => compare env schema .eq (.column c) (.literal l))

/-- The children of an OR, of the nodes and what each is built to. -/
def disjuncts (children : List (Node × Except PredicateError Expr)) :
    Except PredicateError (List Expr) := do
  let rest ← collect ((children.filter fun child => child.1.equality.isNone).map Prod.snd)
  let groups := groups (children.filterMap fun child => child.1.equality)
  let found ← collect (groups.map fun group => lookups env schema group.1 group.2)
  return rest ++ found.flatten

def negated (negated : Bool) (e : Expr) : Expr := if negated then .not e else e

def buildLike (target : Operand) (pattern : Text) (ignoreCase isNegated : Bool) :
    Except PredicateError Expr := do
  let subject ← single env schema target
  match target with
  | .column c =>
    let (_, type) ← column env schema c
    let subject := if type.isText then subject else .castText type subject
    return negated isNegated (.matchLike subject pattern ignoreCase)
  | .literal _ => return negated isNegated (.matchLike subject pattern ignoreCase)

def buildLeaf : Leaf → Except PredicateError Expr
  | .true => return .scalar (some true)
  | .false => return .scalar (some false)
  | .column c => do
    let resolved ← resolve env schema c
    if resolved.2.is .boolean then return .field resolved.1
    throw (.notBoolean c.path resolved.2)
  | .compare op left right => compare env schema op left right
  | .eqNullSafe left right => do
    let (a, b) ← pair env schema left right
    let equal ← compare env schema .eq left right
    return .ifElse (.and (.isNull a) (.isNull b)) (.scalar (some true))
      (.coalesce equal (.scalar (some false)))
  | .isNull target => do return .isNull (← single env schema target)
  | .isNotNull target => do return .isValid (← single env schema target)
  | .inList target items isNegated => do
    match ← membership env schema target items with
    | some lookup => return negated isNegated lookup
    | none =>
      let clauses ← collect (items.map fun item => compare env schema .eq target item)
      return negated isNegated (← fold .or clauses)
  | .between target low high isNegated => do
    let atLeast ← compare env schema .ge target low
    let atMost ← compare env schema .le target high
    return negated isNegated (.and atLeast atMost)
  | .like target pattern isNegated => buildLike env schema target pattern false isNegated
  | .ilike target pattern isNegated => buildLike env schema target pattern true isNegated

def build : Node → Except PredicateError Expr
  | .leaf l => buildLeaf env schema l
  | .and args => do fold .and (← collect (args.map build))
  | .or args => do fold .or (← disjuncts env schema (args.map fun arg => (arg, build arg)))
  | .not arg => do return .not (← build arg)

end

end Builder

open Result

section
variable {t : Prim} {v : Value}

theorem isFloat_of_floating (ht : t.isFloating = true) (h : v.hasType t = true) :
    v.isFloat = true := by
  cases t <;> cases v <;> simp_all [Prim.isFloating, Value.hasType, Value.isFloat]

theorem not_isFloat_of_not_floating (ht : t.isFloating = false) (h : v.hasType t = true) :
    v.isFloat = false := by
  cases t <;> cases v <;> simp_all [Prim.isFloating, Value.hasType, Value.isFloat]

theorem numeric_cases (ht : t.isNumeric = true) (h : v.hasType t = true) :
    (∃ x, v = .float x) ∨ ∃ q, v = .num q := by
  cases t <;> cases v <;>
    simp_all [Prim.isNumeric, Prim.isInteger, Prim.isFloating, Prim.isDecimal, Value.hasType]

end

section
variable {type : Ty} {v : Value}

theorem holds_isFloat (ht : type.isFloating = true) (h : type.holds v = true) :
    v.isFloat = true := by
  cases type with
  | prim t => exact isFloat_of_floating ht h
  | struct | nested => cases ht

theorem holds_not_isFloat (ht : type.isFloating = false) (h : type.holds v = true) :
    v.isFloat = false := by
  cases type with
  | prim t => exact not_isFloat_of_not_floating ht h
  | struct | nested =>
    simp only [Ty.holds, decide_eq_true_eq] at h
    rw [h]
    rfl

end

/-- A column is cast to a float if it holds numbers, and to something else only if it
holds no floats. -/
def CastFits (target : Prim) (cast : Option Prim) : Prop :=
  ∀ c, cast = some c → if c.isFloating then target.isNumeric = true else target.isFloating = false

theorem castFits_none (target : Prim) : CastFits target none := fun _ h => nomatch h

section
variable {env : Env} {lit : Literal} {target : Prim} {result : Coerced}

theorem coercePlain_fits (h : coercePlain env lit target = .ok result) :
    CastFits target result.1 := by
  unfold coercePlain at h
  obtain ⟨scalar, -, h⟩ := bind_eq_ok_iff.mp h
  split_ifs at h
  · cases h
    exact castFits_none target
  · split at h
    · cases h
      exact castFits_none target
    · split at h
      · split_ifs at h
        · cases h
          intro c hc
          cases hc
          rfl
        · cases h
          exact castFits_none _
      · cases h
        exact castFits_none target

theorem coerceDecimal_fits {d : Dec} (htarget : (target.isInteger || target.isDecimal) = true)
    (h : coerceDecimal env d target = .ok result) : CastFits target result.1 := by
  have hwide : ∀ literal, (commonDecimal target literal).isFloating = false := by
    intro literal
    unfold commonDecimal
    dsimp only
    split_ifs <;> rfl
  have hnot : target.isFloating = false := by
    cases target <;> simp_all [Prim.isInteger, Prim.isDecimal, Prim.isFloating]
  unfold coerceDecimal at h
  obtain ⟨scalar, -, h⟩ := bind_eq_ok_iff.mp h
  have hwidened : CastFits target (some (commonDecimal target scalar.type)) := by
    intro c hc
    cases hc
    rw [hwide]
    exact hnot
  dsimp only at h
  split at h
  · split_ifs at h
    · cases h
      exact castFits_none target
    · split at h
      · cases h
        exact hwidened
      · cases h
  · split at h
    · cases h
      exact hwidened
    · cases h

theorem coerceTimestamp_fits {us : ℤ} {offset : Option ℤ}
    (htarget : (target.isDate || target.isTimestamp) = true)
    (h : coerceTimestamp env us offset target = .ok result) : CastFits target result.1 := by
  have hnot : target.isFloating = false := by
    cases target <;> simp_all [Prim.isDate, Prim.isTimestamp, Prim.isFloating]
  unfold coerceTimestamp at h
  dsimp only at h
  split at h
  · obtain ⟨scalar, -, h⟩ := bind_eq_ok_iff.mp h
    split at h
    · cases h
      exact castFits_none _
    · cases h
      intro c hc
      cases hc
      exact hnot
    · cases h
  · obtain ⟨scalar, -, h⟩ := bind_eq_ok_iff.mp h
    cases h
    intro c hc
    cases hc
    exact hnot

theorem coerceValue_fits (h : coerceValue env lit target = .ok result) :
    CastFits target result.1 := by
  have hdouble : ∀ {x : Fl}, (isNarrowFloat target || target.isInteger || target.isDecimal) = true →
      CastFits target (some .float64, some (Scalar.ofDouble x)).1 := by
    intro x htarget c hc
    cases hc
    cases target <;> simp_all [isNarrowFloat, Prim.isFloating, Prim.isNumeric, Prim.isInteger,
      Prim.isDecimal]
  unfold coerceValue at h
  split at h
  · split_ifs at h with htarget
    · exact coerceTimestamp_fits htarget h
    · exact coercePlain_fits h
  · split_ifs at h with htarget
    · cases h
      exact hdouble (x := .nan) htarget
    · exact coercePlain_fits h
  · split_ifs at h with hnarrow hdecimal
    · cases h
      exact hdouble (x := .nan) (by simp [hnarrow])
    · exact coerceDecimal_fits (by simp [hdecimal]) h
    · exact coercePlain_fits h
  · split_ifs at h with hnarrow hexact
    · cases h
      exact hdouble (x := .nan) (by simp [hnarrow])
    · exact coerceDecimal_fits hexact h
    · exact coercePlain_fits h
  · exact coercePlain_fits h

/-- A coerced literal is cast to nothing, or as fits the type asked for. -/
theorem coerce_fits {type : Ty} (h : coerce env lit (some type) = .ok result) :
    result = (none, none) ∨ ∃ t, type = .prim t ∧ CastFits t result.1 := by
  unfold coerce at h
  split at h
  · cases h
    exact .inl rfl
  · rename_i hnone
    cases hnone
  · cases h
  · cases h
  · rename_i s t htype
    cases htype
    refine .inr ⟨t, rfl, ?_⟩
    split_ifs at h
    · obtain ⟨temporal, -, h⟩ := bind_eq_ok_iff.mp h
      exact coerceValue_fits h
    · obtain ⟨number, -, h⟩ := bind_eq_ok_iff.mp h
      split at h
      · cases h
        exact castFits_none t
      · exact coerceValue_fits h
    · exact coerceValue_fits h
  · rename_i t _ _ htype
    cases htype
    refine .inr ⟨t, rfl, ?_⟩
    split_ifs at h
    exact coerceValue_fits h

end

section
variable {env : Env} {schema : Schema} (row : Row env.lower schema)

theorem column_typed {c : Column} {path : List Text} {type : Ty}
    (h : resolve env schema c = .ok (path, type)) {v : Value} (hv : row.get path = some v) :
    type.holds v = true := by
  unfold resolve at h
  obtain ⟨found, hfound, h⟩ := bind_eq_ok_iff.mp h
  split at h
  · cases h
    exact row.typed _ _ _ _ hfound hv
  · cases h

theorem column_floatOrNull {c : Column} {path : List Text} {type : Ty}
    (h : resolve env schema c = .ok (path, type)) (ht : type.isFloating = true) :
    FloatOrNull (row.get path) :=
  fun _ hv => holds_isFloat ht (column_typed row h hv)

theorem column_notFloat {c : Column} {path : List Text} {type : Ty}
    (h : resolve env schema c = .ok (path, type)) (ht : type.isFloating = false) :
    NotFloat (row.get path) :=
  fun _ hv => holds_not_isFloat ht (column_typed row h hv)

theorem castValue_notFloat {round : ℚ → Fl} {t : Prim} {v : Value} (ht : t.isFloating = false)
    (hv : v.isFloat = false) : (castValue round t v).isFloat = false := by
  cases t <;> cases v <;> simp_all [castValue, Value.isFloat, Prim.isFloating]

theorem castValue_float {round : ℚ → Fl} {t target : Prim} {v : Value}
    (ht : t.isFloating = true) (htarget : target.isNumeric = true)
    (hv : v.hasType target = true) : (castValue round t v).isFloat = true := by
  rcases numeric_cases htarget hv with ⟨x, rfl⟩ | ⟨q, rfl⟩
  · cases t <;> simp_all [castValue, Value.isFloat, Prim.isFloating]
  · cases t <;> simp_all [castValue, Value.isFloat, Prim.isFloating]

variable {c : Column} {lit : Literal} {path : List Text} {type : Ty} {cast : Option Prim}
  {scalar : Option Scalar}

theorem literal_floating (hc : resolve env schema c = .ok (path, type))
    (hlit : coerce env lit (some type) = .ok (cast, scalar))
    (h : Builder.anyFloating type (cast, scalar) = true) :
    FloatOrNull (castColumn env.round cast (row.get path)) ∨
      FloatOrNull (scalar.map Scalar.value) := by
  cases scalar with
  | none => exact .inr fun _ hx => nomatch hx
  | some scalar =>
    rw [Builder.anyFloating, Bool.or_eq_true] at h
    rcases h with h | h
    · left
      cases cast with
      | none => exact column_floatOrNull row hc h
      | some t =>
        have ht : t.isFloating = true := h
        rcases coerce_fits hlit with heq | ⟨target, rfl, hfits⟩
        · cases heq
        · have hnumeric := hfits t rfl
          rw [if_pos ht] at hnumeric
          intro x hx
          obtain ⟨v, hv, rfl⟩ := Option.map_eq_some_iff.mp hx
          exact castValue_float ht hnumeric (column_typed row hc hv)
    · right
      intro x hx
      cases hx
      exact isFloat_of_floating h scalar.typed

theorem literal_not_floating (hc : resolve env schema c = .ok (path, type))
    (hlit : coerce env lit (some type) = .ok (cast, scalar))
    (h : Builder.anyFloating type (cast, scalar) = false) :
    NotFloat (castColumn env.round cast (row.get path)) ∧ NotFloat (scalar.map Scalar.value) := by
  rw [Builder.anyFloating, Bool.or_eq_false_iff] at h
  constructor
  · cases cast with
    | none => exact column_notFloat row hc h.1
    | some t =>
      have ht : t.isFloating = false := h.1
      rcases coerce_fits hlit with heq | ⟨target, rfl, hfits⟩
      · cases heq
      · have hnot := hfits t rfl
        rw [if_neg (by simp [ht])] at hnot
        intro x hx
        obtain ⟨v, hv, rfl⟩ := Option.map_eq_some_iff.mp hx
        exact castValue_notFloat ht (column_notFloat row hc hnot v hv)
  · intro x hx
    cases scalar with
    | none => cases hx
    | some scalar =>
      cases hx
      exact not_isFloat_of_not_floating h.2 scalar.typed

end

end DeltaSwamp.Predicate
