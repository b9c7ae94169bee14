import DeltaSwamp.Like
import Mathlib.Data.Int.ConditionallyCompleteOrder
import Mathlib.Data.Prod.Lex

/-!
# Column values

The values a row holds, the types of its columns, and the orders the engines
compare values by: SQL's, IEEE's and the total order of floats.
-/

namespace DeltaSwamp.Predicate

/-- How two values of an ordered type compare. -/
def order {α : Type} [LinearOrder α] (a b : α) : Ordering := cmp a b

section
variable {α : Type} [LinearOrder α] {a b : α}

@[simp] theorem order_eq_lt : order a b = .lt ↔ a < b := cmp_eq_lt_iff a b

@[simp] theorem order_eq_eq : order a b = .eq ↔ a = b := cmp_eq_eq_iff a b

@[simp] theorem order_eq_gt : order a b = .gt ↔ b < a := cmp_eq_gt_iff a b

theorem order_swap : (order a b).swap = order b a := cmp_swap a b

end

/-- A float: `fin 0` is `0.0`, and every other finite float is the rational it stands for. -/
inductive Fl where
  | nan
  | negInf
  | posInf
  | negZero
  | fin (q : ℚ)
  deriving DecidableEq

namespace Fl

/-- Where SQL places a float: NaN above everything, `-0.0` at `0.0`. -/
def key : Fl → ℤ ×ₗ ℚ
  | nan => toLex (2, 0)
  | negInf => toLex (-1, 0)
  | posInf => toLex (1, 0)
  | negZero => toLex (0, 0)
  | fin q => toLex (0, q)

def sqlOrder (x y : Fl) : Ordering := order x.key y.key

def isNan (x : Fl) : Bool := x = nan

/-- `x == y` of IEEE floats: nothing equals NaN. -/
def ieeeEq (x y : Fl) : Bool := !x.isNan && !y.isNan && decide (x.key = y.key)

/-- `x < y` of IEEE floats: nothing is below or above NaN. -/
def ieeeLt (x y : Fl) : Bool := !x.isNan && !y.isNan && decide (x.key < y.key)

/-- Where the total order of floats places one: `-0.0` just below `0.0`. -/
def totalKey : Fl → ℤ ×ₗ ℚ ×ₗ ℤ
  | nan => toLex (2, toLex (0, 0))
  | negInf => toLex (-1, toLex (0, 0))
  | posInf => toLex (1, toLex (0, 0))
  | negZero => toLex (0, toLex (0, -1))
  | fin q => toLex (0, toLex (q, 0))

def totalOrder (x y : Fl) : Ordering := order x.totalKey y.totalKey

/-- `x + 0.0`. -/
def plusZero : Fl → Fl
  | negZero => fin 0
  | x => x

variable {x : Fl}

@[simp] theorem plusZero_eq_nan : x.plusZero = nan ↔ x = nan := by
  cases x <;> simp [plusZero]

theorem key_eq_nan : x.key = nan.key ↔ x = nan := by
  cases x <;> simp [key]

theorem key_lt_nan : x.key < nan.key ↔ x ≠ nan := by
  cases x <;> simp [key, Prod.Lex.toLex_lt_toLex]

theorem not_nan_key_lt : ¬ nan.key < x.key := by
  cases x <;> simp [key, Prod.Lex.toLex_lt_toLex]

theorem ieeeEq_or_nan (x y : Fl) :
    (x.ieeeEq y || (x.isNan && y.isNan)) = decide (x.sqlOrder y = .eq) := by
  rw [Bool.eq_iff_iff]
  by_cases hx : x = nan
  · simp [hx, ieeeEq, sqlOrder, isNan, @eq_comm _ nan.key, key_eq_nan]
  · by_cases hy : y = nan
    · simp [hx, hy, ieeeEq, sqlOrder, isNan, key_eq_nan]
    · simp [hx, hy, ieeeEq, sqlOrder, isNan]

theorem ieeeLt_or_nan (x y : Fl) :
    (x.ieeeLt y || (y.isNan && !x.isNan)) = decide (x.sqlOrder y = .lt) := by
  rw [Bool.eq_iff_iff]
  by_cases hx : x = nan
  · simp [hx, ieeeLt, sqlOrder, isNan, not_nan_key_lt]
  · by_cases hy : y = nan
    · simp [hx, hy, ieeeLt, sqlOrder, isNan, key_lt_nan]
    · simp [hx, hy, ieeeLt, sqlOrder, isNan]

end Fl

inductive TextKind where
  | string
  | largeString
  | stringView
  deriving DecidableEq

inductive TimeUnit where
  | s
  | ms
  | us
  | ns
  deriving DecidableEq

/-- Nanoseconds in one unit. -/
def TimeUnit.nanos : TimeUnit → ℕ
  | s => 10 ^ 9
  | ms => 10 ^ 6
  | us => 10 ^ 3
  | ns => 1

def dayNanos : ℕ := 86400 * 10 ^ 9

/-- The types whose values are no structs, lists or maps. -/
inductive Prim where
  | boolean
  | int (signed : Bool) (bits : ℕ)
  | float (bits : ℕ)
  | decimal (bits precision scale : ℕ)
  | text (kind : TextKind)
  | binary (large : Bool)
  | date32
  | date64
  | timestamp (unit : TimeUnit) (tz : Option Text)
  deriving DecidableEq

inductive Ty where
  | prim (p : Prim)
  | struct (fields : List (Text × Ty))
  /-- A list, a map, or any other type made of others. -/
  | nested

namespace Prim

abbrev int64 : Prim := .int true 64

abbrev float64 : Prim := .float 64

def isInteger : Prim → Bool
  | .int .. => true
  | _ => false

def isFloating : Prim → Bool
  | .float _ => true
  | _ => false

def isDecimal : Prim → Bool
  | .decimal .. => true
  | _ => false

def isText : Prim → Bool
  | .text _ => true
  | _ => false

def isDate : Prim → Bool
  | .date32 | .date64 => true
  | _ => false

def isTimestamp : Prim → Bool
  | .timestamp .. => true
  | _ => false

def isNumeric (t : Prim) : Bool := t.isInteger || t.isFloating || t.isDecimal

end Prim

inductive Value where
  | bool (b : Bool)
  /-- An integer or a decimal. -/
  | num (q : ℚ)
  | float (x : Fl)
  | text (s : Text)
  | bytes (bs : List (Fin 256))
  /-- Nanoseconds since the epoch: a date, or a timestamp with or without a zone. -/
  | time (ns : ℤ)
  | nested
  deriving DecidableEq

namespace Value

def inRange (signed : Bool) (bits : ℕ) (n : ℤ) : Bool :=
  if signed then -2 ^ (bits - 1) ≤ n && n < 2 ^ (bits - 1) else 0 ≤ n && n < 2 ^ bits

/-- The values a column of type `t` may hold. -/
def hasType : Prim → Value → Bool
  | .boolean, bool _ => true
  | .int signed bits, num q => q.den = 1 && inRange signed bits q.num
  | .float _, float _ => true
  | .decimal _ precision scale, num q =>
    (q * 10 ^ scale).den = 1 && |q * 10 ^ scale| < 10 ^ precision
  | .text _, text _ => true
  | .binary _, bytes _ => true
  | .date32, time ns => ns % dayNanos = 0
  | .date64, time ns => ns % 10 ^ 6 = 0
  | .timestamp unit _, time ns => ns % unit.nanos = 0
  | _, _ => false

end Value

/-- The values a column may hold; those of one made of others are not told apart. -/
def Ty.holds : Ty → Value → Bool
  | .prim t, v => v.hasType t
  | _, v => v = .nested

namespace Value

section
variable (round : ℚ → Fl)

/-- SQL's order of two values: a number is compared with a float as a double,
which `round` makes of it. -/
def sqlOrder : Value → Value → Option Ordering
  | bool a, bool b => some (order a b)
  | num a, num b => some (order a b)
  | float x, float y => some (x.sqlOrder y)
  | num a, float y => some ((round a).sqlOrder y)
  | float x, num b => some (x.sqlOrder (round b))
  | text a, text b => some (order a b)
  | bytes a, bytes b => some (order a b)
  | time a, time b => some (order a b)
  | _, _ => none

/-- Adding zero to a float; any other value stays as it is. -/
def plusZero : Value → Value
  | float x => float x.plusZero
  | v => v

end

end Value

inductive CmpOp where
  | eq
  | ne
  | lt
  | le
  | gt
  | ge
  deriving DecidableEq

namespace CmpOp

def holds : CmpOp → Ordering → Bool
  | eq, o => o = .eq
  | ne, o => o ≠ .eq
  | lt, o => o = .lt
  | le, o => o ≠ .gt
  | gt, o => o = .gt
  | ge, o => o ≠ .lt

/-- The comparison with its sides exchanged. -/
def mirror : CmpOp → CmpOp
  | lt => gt
  | le => ge
  | gt => lt
  | ge => le
  | op => op

end CmpOp

/-- A decimal literal: `unscaled / 10 ^ scale`. -/
structure Dec where
  unscaled : ℤ
  scale : ℕ
  deriving DecidableEq

def Dec.value (d : Dec) : ℚ := d.unscaled / 10 ^ d.scale

inductive Literal where
  | null
  | boolean (b : Bool)
  | long (n : ℤ)
  | double (x : Fl)
  | decimal (d : Dec)
  | string (s : Text)
  | date (days : ℤ)
  /-- Microseconds since the epoch. A zoned timestamp has the offset from UTC it is
  written with; one without a zone (TIMESTAMP_NTZ) has none. -/
  | timestamp (us : ℤ) (offset : Option ℤ)
  deriving DecidableEq

structure Column where
  path : List Text
  deriving DecidableEq

inductive Operand where
  | column (c : Column)
  | literal (l : Literal)
  deriving DecidableEq

/-- The nodes that are no connective. -/
inductive Leaf where
  | true
  | false
  | column (c : Column)
  | compare (op : CmpOp) (left right : Operand)
  | eqNullSafe (left right : Operand)
  | isNull (target : Operand)
  | isNotNull (target : Operand)
  | inList (target : Operand) (items : List Operand) (negated : Bool)
  | between (target low high : Operand) (negated : Bool)
  | like (target : Operand) (pattern : Text) (negated : Bool)
  | ilike (target : Operand) (pattern : Text) (negated : Bool)
  deriving DecidableEq

inductive Node where
  | leaf (l : Leaf)
  | and (args : List Node)
  | or (args : List Node)
  | not (arg : Node)

@[induction_eliminator]
theorem Node.induct {P : Node → Prop} (leaf : ∀ l, P (.leaf l))
    (and : ∀ args, (∀ a ∈ args, P a) → P (.and args))
    (or : ∀ args, (∀ a ∈ args, P a) → P (.or args)) (not : ∀ a, P a → P (.not a)) : ∀ n, P n
  | .leaf l => leaf l
  | .and args => and args fun a _ => induct leaf and or not a
  | .or args => or args fun a _ => induct leaf and or not a
  | .not a => not a (induct leaf and or not a)

/-- What keeps a predicate from being rendered, with what the message names. -/
inductive PredicateError where
  | unknownColumn (path : List Text)
  /-- A reference that the named fields match equally well. -/
  | ambiguous (path : List Text) (names : List Text)
  /-- A column that stands alone as a condition and is not BOOLEAN. -/
  | notBoolean (path : List Text) (type : Ty)
  /-- A literal that a column of the type cannot be compared with. -/
  | mismatch (type : Ty) (lit : Literal)
  /-- A string that is no value of the column's type. -/
  | badString (type : Prim) (s : Text)
  /-- A literal with no Arrow representation. -/
  | noScalar (lit : Literal)
  /-- Raised by Arrow, by a cast or as it binds the expression. -/
  | arrow
  /-- A node without arguments where one is needed. -/
  | empty
  /-- `_Unrenderable`: a type without a DataFusion spelling. -/
  | unrenderable (type : Prim)

abbrev Schema := List (Text × Ty)

/-- The fields a name refers to: those of that very name or, failing them, those
that differ from it by case only. -/
def matching (lower : Text → Text) (fields : Schema) (name : Text) : Schema :=
  let exact := fields.filter fun f => f.1 = name
  if exact.isEmpty then fields.filter fun f => lower f.1 = lower name else exact

/-- `_resolve_path`: the path as the schema spells it, and its type; `none` if absent. -/
def resolvePath (lower : Text → Text) (fields : Schema) :
    List Text → Except PredicateError (Option (List Text × Ty))
  | [] => .ok none
  | name :: rest =>
    match matching lower fields name with
    | [] => .ok none
    | [(spelled, type)] =>
      match rest, type with
      | [], _ => .ok (some ([spelled], type))
      | _ :: _, .struct inner =>
        (resolvePath lower inner rest).map fun found =>
          found.map fun f => (spelled :: f.1, f.2)
      | _ :: _, _ => .ok none
    | several => .error (.ambiguous (name :: rest) (several.map Prod.fst))

/-- A row of a table: the value at each column path, spelled as the schema spells
it, `none` for NULL. -/
structure Row (lower : Text → Text) (schema : Schema) where
  get : List Text → Option Value
  typed : ∀ path spelled t v, resolvePath lower schema path = .ok (some (spelled, t)) →
    get spelled = some v → t.holds v = true

section
variable {α β : Type}

/-- One round of `_balanced`: neighbours are combined, an odd last item stays. -/
def pairUp (combine : α → α → α) : List α → List α
  | x :: y :: rest => combine x y :: pairUp combine rest
  | rest => rest

theorem length_pairUp_le (combine : α → α → α) : ∀ items : List α,
    (pairUp combine items).length ≤ items.length
  | [] | [_] => by simp [pairUp]
  | _ :: _ :: rest => by
    have := length_pairUp_le combine rest
    simp [pairUp]
    omega

/-- `_balanced`: fold the items pairwise into a tree of logarithmic depth. -/
def balanced (combine : α → α → α) : List α → Option α
  | [] => none
  | [x] => some x
  | x :: y :: rest => balanced combine (combine x y :: pairUp combine rest)
  termination_by items => items.length
  decreasing_by
    have := length_pairUp_le combine rest
    simp
    omega

variable {R : α → β → Prop} {combine : α → α → α} {f : β → β → β} {e : β}

theorem pairUp_rel [Std.Associative f] (hR : ∀ x y v w, R x v → R y w → R (combine x y) (f v w)) :
    ∀ {items : List α} {vs : List β}, List.Forall₂ R items vs →
      ∃ ws, List.Forall₂ R (pairUp combine items) ws ∧ ws.foldr f e = vs.foldr f e
  | [], _, .nil => ⟨[], .nil, rfl⟩
  | [_], _, .cons h .nil => ⟨_, .cons h .nil, rfl⟩
  | _ :: _ :: _, v :: w :: _, .cons hx (.cons hy hrest) => by
    obtain ⟨ws, hws, heq⟩ := pairUp_rel hR hrest
    refine ⟨f v w :: ws, .cons (hR _ _ _ _ hx hy) hws, ?_⟩
    rw [List.foldr_cons, List.foldr_cons, List.foldr_cons, heq]
    exact Std.Associative.assoc v w _

/-- A tree of items means what the fold of their meanings does, if one combination does. -/
theorem balanced_rel [Std.Associative f]
    (hR : ∀ x y v w, R x v → R y w → R (combine x y) (f v w)) (he : ∀ v, f v e = v)
    {items : List α} {t : α} (h : balanced combine items = some t) {vs : List β}
    (hvs : List.Forall₂ R items vs) : R t (vs.foldr f e) := by
  induction items using balanced.induct combine generalizing vs with
  | case1 => simp [balanced] at h
  | case2 x =>
    obtain _ | ⟨hx, _ | _⟩ := hvs
    simp only [balanced, Option.some.injEq] at h
    rw [← h, List.foldr_cons, List.foldr_nil, he]
    exact hx
  | case3 x y rest ih =>
    rw [balanced] at h
    obtain ⟨ws, hws, heq⟩ := pairUp_rel (e := e) hR hvs
    rw [← heq]
    exact ih h hws

end

end DeltaSwamp.Predicate
