import DeltaSwamp.Json
import DeltaSwamp.Kleene
import Mathlib.Data.List.ReduceOption

/-!
# Predicates for file skipping

`predicate.rs`: a JSON predicate converted for the kernel's file skipping. In
exact mode the result means what the input does; otherwise it may be weaker.
-/

namespace DeltaSwamp.Skipping

open List

section
variable (T V : Type)

/-- The types of a schema, over the primitive ones. -/
inductive DataType where
  | primitive (type : T)
  | struct (fields : List (String × DataType))
  | other

/-- The kernel's operands: a column as the schema spells it, or a literal. -/
inductive Expression where
  | column (path : List String)
  | literal (value : V)

inductive Comparison where
  | eq | ne | lt | le | gt | ge
  deriving DecidableEq

/-- The kernel's predicates. -/
inductive Predicate where
  | isNull (path : List String)
  | isNotNull (path : List String)
  | compare (op : Comparison) (left right : Expression V)
  | not (child : Predicate)
  | and (children : List Predicate)
  | or (children : List Predicate)

end

def Comparison.ofOp : String → Option Comparison
  | "eq" => some .eq
  | "ne" => some .ne
  | "lt" => some .lt
  | "le" => some .le
  | "gt" => some .gt
  | "ge" => some .ge
  | _ => none

/-- A node's operator and arguments. -/
def call (node : Json) : Option (String × List Json) := do
  let op ← (← node.get "op").asStr
  let args ← (← node.get "args").asArray
  return (op, args)

def eqIgnoreAsciiCase (a b : String) : Bool :=
  a.toList.map Char.toLower == b.toList.map Char.toLower

section
variable {T V : Type}

/-- The field a name refers to: the one of that very name or, failing it, the first that differs by
case only. -/
def fieldOf (fields : List (String × DataType T)) (part : String) : Option (String × DataType T) :=
  (fields.find? fun f => f.1 == part) <|> fields.find? fun f => eqIgnoreAsciiCase f.1 part

def resolveParts : List (String × DataType T) → List String → Option (List String × T)
  | _, [] => none
  | fields, [part] => do
    let field ← fieldOf fields part
    match field.2 with
    | .primitive type => some ([field.1], type)
    | _ => none
  | fields, part :: rest => do
    let field ← fieldOf fields part
    match field.2 with
    | .struct inner => (resolveParts inner rest).map fun found => (field.1 :: found.1, found.2)
    | _ => none

/-- `resolve_column` -/
def resolveColumn (node : Json) (schema : List (String × DataType T)) :
    Option (List String × T) := do
  match ← node.get "column" with
  | .arr items => resolveParts schema (← items.mapM Json.asStr)
  | .str s => resolveParts schema [s]
  | _ => none

/-- What a conversion takes from the types: `coerce_literal`, which types are the same, and which
scalars are a float zero. -/
structure Literals (T V : Type) where
  coerce : Json → T → Option V
  sameType : T → T → Bool
  isZero : V → Bool

variable (literals : Literals T V) (schema : List (String × DataType T))

/-- A float zero is left out: the kernel orders `-0.0` below `0.0`. -/
def skippable (value : V) : Option V := if literals.isZero value then none else some value

/-- `comparison_operands` -/
def comparisonOperands (left right : Json) : Option (Expression V × Expression V) :=
  match resolveColumn left schema, resolveColumn right schema with
  | some (lc, lt), some (rc, rt) =>
    if literals.sameType lt rt then some (.column lc, .column rc) else none
  | some (column, type), none => do
    let value ← skippable literals (← literals.coerce right type)
    return (.column column, .literal value)
  | none, some (column, type) => do
    let value ← skippable literals (← literals.coerce left type)
    return (.literal value, .column column)
  | none, none => none

/-- The operators without predicates under them. -/
def convertLeaf (op : String) (args : List Json) : Option (Predicate V) :=
  match args with
  | [arg] =>
    if op = "is_null" then (resolveColumn arg schema).map fun column => .isNull column.1
    else if op = "is_not_null" then (resolveColumn arg schema).map fun column => .isNotNull column.1
    else none
  | [left, right] => do
    let comparison ← Comparison.ofOp op
    let operands ← comparisonOperands literals schema left right
    return .compare comparison operands.1 operands.2
  | _ => none

/-- One predicate for several. -/
def combine (join : List (Predicate V) → Predicate V) : List (Predicate V) → Option (Predicate V)
  | [] => none
  | [child] => some child
  | children => some (join children)

def convertAnd (exact : Bool) (converted : List (Option (Predicate V))) : Option (Predicate V) :=
  if exact && converted.any Option.isNone then none else combine .and converted.reduceOption

/-- An `or` needs every child. -/
def convertOr (converted : List (Option (Predicate V))) : Option (Predicate V) :=
  if converted.any Option.isNone then none else combine .or converted.reduceOption

end

theorem sizeOf_get {node value : Json} {key : String} (h : node.get key = some value) :
    sizeOf value < sizeOf node := by
  cases node with
  | obj fields =>
    obtain ⟨before, after, rfl, -⟩ :=
      lookup_eq_some_iff.mp (show fields.lookup key = some value from h)
    have hmem : (key, value) ∈ before ++ (key, value) :: after := by simp
    have hlt := sizeOf_lt_of_mem hmem
    simp only [Prod.mk.sizeOf_spec] at hlt
    simp only [Json.obj.sizeOf_spec]
    omega
  | null | bool | int | float | str | arr => cases h

theorem sizeOf_arg {node arg : Json} {op : String} {args : List Json}
    (hcall : call node = some (op, args)) (harg : arg ∈ args) : sizeOf arg < sizeOf node := by
  unfold call at hcall
  simp only [Option.bind_eq_bind, Option.bind_eq_some_iff, Option.pure_def, Option.some.injEq,
    Prod.mk.injEq] at hcall
  obtain ⟨_, -, _, -, value, hvalue, items, hitems, -, rfl⟩ := hcall
  have hnode := sizeOf_get hvalue
  cases value with
  | arr inner =>
    cases hitems
    have hitem := sizeOf_lt_of_mem harg
    simp only [Json.arr.sizeOf_spec] at hnode
    omega
  | null | bool | int | float | str | obj => cases hitems

theorem call_induct {P : Json → Prop}
    (step : ∀ node, (∀ op args, call node = some (op, args) → ∀ arg ∈ args, P arg) → P node)
    (node : Json) : P node :=
  step node fun _ _ hcall arg harg =>
    have := sizeOf_arg hcall harg
    call_induct step arg
termination_by sizeOf node

section
variable {T V : Type} (literals : Literals T V) (schema : List (String × DataType T))

/-- `convert` -/
def convert (node : Json) (exact : Bool) : Option (Predicate V) :=
  match hcall : call node with
  | none => none
  | some (op, args) =>
    if op = "and" then convertAnd exact (args.attach.map fun arg =>
      have := sizeOf_arg hcall arg.2
      convert arg.1 exact)
    else if op = "or" then convertOr (args.attach.map fun arg =>
      have := sizeOf_arg hcall arg.2
      convert arg.1 exact)
    else if op = "not" then
      match hargs : args with
      | [child] =>
        have := sizeOf_arg hcall (by simp : child ∈ [child])
        (convert child true).map .not
      | _ => none
    else convertLeaf literals schema op args
termination_by sizeOf node

/-- What a predicate is read with: how two values compare, what a literal is that no column's type
takes exactly, and what a node means that is no connective, null check or comparison. -/
structure Meaning (T V : Type) where
  compare : Comparison → Option V → Option V → Truth
  literal : Json → T → Option V
  other : Json → (List String → Option V) → Truth

variable (meaning : Meaning T V)

/-- A literal's value beside a column of a type. -/
def literalValue (node : Json) (type : T) : Option V :=
  (literals.coerce node type).orElse fun _ => meaning.literal node type

/-- The values a comparison is about. -/
def operandValues (left right : Json) (row : List String → Option V) :
    Option (Option V × Option V) :=
  match resolveColumn left schema, resolveColumn right schema with
  | some (lc, _), some (rc, _) => some (row lc, row rc)
  | some (column, type), none => some (row column, literalValue literals meaning right type)
  | none, some (column, type) => some (literalValue literals meaning left type, row column)
  | none, none => none

def leafTruth (node : Json) (op : String) (args : List Json) (row : List String → Option V) :
    Truth :=
  match args with
  | [arg] =>
    match resolveColumn arg schema with
    | some (column, _) =>
      if op = "is_null" then some (row column).isNone
      else if op = "is_not_null" then some (row column).isSome
      else meaning.other node row
    | none => meaning.other node row
  | [left, right] =>
    match Comparison.ofOp op, operandValues literals schema meaning left right row with
    | some comparison, some values => meaning.compare comparison values.1 values.2
    | _, _ => meaning.other node row
  | _ => meaning.other node row

/-- A node's three-valued meaning on a row. -/
def truth (node : Json) (row : List String → Option V) : Truth :=
  match hcall : call node with
  | none => meaning.other node row
  | some (op, args) =>
    if op = "and" then Truth.all (args.attach.map fun arg =>
      have := sizeOf_arg hcall arg.2
      truth arg.1 row)
    else if op = "or" then Truth.any (args.attach.map fun arg =>
      have := sizeOf_arg hcall arg.2
      truth arg.1 row)
    else if op = "not" then
      match hargs : args with
      | [child] =>
        have := sizeOf_arg hcall (by simp : child ∈ [child])
        (truth child row).not
      | _ => meaning.other node row
    else leafTruth literals schema meaning node op args row
termination_by sizeOf node

def Expression.value (row : List String → Option V) : Expression V → Option V
  | .column path => row path
  | .literal value => some value

/-- The kernel's reading of a predicate. -/
def Predicate.eval (row : List String → Option V) : Predicate V → Truth
  | .isNull path => some (row path).isNone
  | .isNotNull path => some (row path).isSome
  | .compare op left right => meaning.compare op (left.value row) (right.value row)
  | .not child => (child.eval row).not
  | .and children => Truth.all (children.map fun child => child.eval row)
  | .or children => Truth.any (children.map fun child => child.eval row)

section
variable {T V : Type} {literals : Literals T V} {schema : List (String × DataType T)}
  {meaning : Meaning T V} {row : List String → Option V}

theorem operands_values {left right : Json} {l r : Expression V}
    (h : comparisonOperands literals schema left right = some (l, r)) :
    operandValues literals schema meaning left right row = some (l.value row, r.value row) := by
  have hskip : ∀ {value kept : V}, skippable literals value = some kept → value = kept := by
    intro value kept hkept
    unfold skippable at hkept
    split_ifs at hkept
    exact Option.some.inj hkept
  unfold comparisonOperands at h
  unfold operandValues
  cases hleft : resolveColumn left schema with
  | some column =>
    obtain ⟨lc, lt⟩ := column
    rw [hleft] at h
    cases hright : resolveColumn right schema with
    | some column =>
      obtain ⟨rc, rt⟩ := column
      rw [hright] at h
      dsimp only at h ⊢
      split_ifs at h
      cases h
      rfl
    | none =>
      rw [hright] at h
      dsimp only at h ⊢
      simp only [Option.bind_eq_bind, Option.bind_eq_some_iff, Option.pure_def,
        Option.some.injEq, Prod.mk.injEq] at h
      obtain ⟨value, hvalue, kept, hkept, rfl, rfl⟩ := h
      obtain rfl := hskip hkept
      simp [literalValue, hvalue, Expression.value]
  | none =>
    rw [hleft] at h
    cases hright : resolveColumn right schema with
    | some column =>
      obtain ⟨rc, rt⟩ := column
      rw [hright] at h
      dsimp only at h ⊢
      simp only [Option.bind_eq_bind, Option.bind_eq_some_iff, Option.pure_def,
        Option.some.injEq, Prod.mk.injEq] at h
      obtain ⟨value, hvalue, kept, hkept, rfl, rfl⟩ := h
      obtain rfl := hskip hkept
      simp [literalValue, hvalue, Expression.value]
    | none =>
      rw [hright] at h
      cases h

variable {node : Json} {args : List Json} {p : Predicate V}

theorem convertLeaf_truth {op : String} (h : convertLeaf literals schema op args = some p) :
    p.eval meaning row = leafTruth literals schema meaning node op args row := by
  unfold convertLeaf at h
  unfold leafTruth
  match args with
  | [] => cases h
  | [arg] =>
    dsimp only at h ⊢
    cases hresolved : resolveColumn arg schema with
    | none => simp [hresolved] at h
    | some column =>
      obtain ⟨path, type⟩ := column
      simp only [hresolved, Option.map_some] at h
      split_ifs at h with hnull hnotNull
      · cases h
        simp [Predicate.eval, hnull]
      · cases h
        simp [Predicate.eval, hnotNull]
  | [left, right] =>
    dsimp only at h ⊢
    simp only [Option.bind_eq_bind, Option.bind_eq_some_iff, Option.pure_def,
      Option.some.injEq] at h
    obtain ⟨comparison, hop, ⟨l, r⟩, hoperands, rfl⟩ := h
    rw [hop, operands_values hoperands]
    simp [Predicate.eval]
  | _ :: _ :: _ :: _ => cases h

theorem combine_and {kept : List (Predicate V)} (h : combine .and kept = some p) :
    p.eval meaning row = Truth.all (kept.map fun child => child.eval meaning row) := by
  unfold combine at h
  split at h
  · cases h
  · cases h
    exact (Truth.all_singleton _).symm
  · cases h
    simp [Predicate.eval]

theorem combine_or {kept : List (Predicate V)} (h : combine .or kept = some p) :
    p.eval meaning row = Truth.any (kept.map fun child => child.eval meaning row) := by
  unfold combine at h
  split at h
  · cases h
  · cases h
    exact (Truth.any_singleton _).symm
  · cases h
    simp [Predicate.eval]

theorem kept_values {f : Json → Option (Predicate V)} {g : Json → Truth}
    (hall : ((args.map f).any Option.isNone) = false)
    (hsame : ∀ arg ∈ args, ∀ p, f arg = some p → p.eval meaning row = g arg) :
    (args.map f).reduceOption.map (fun child => child.eval meaning row) = args.map g := by
  induction args with
  | nil => rfl
  | cons arg args ih =>
    simp only [map_cons, any_cons, Bool.or_eq_false_iff] at hall
    cases hf : f arg with
    | none => simp [hf] at hall
    | some p =>
      simp only [map_cons, hf, reduceOption_cons_of_some]
      rw [ih hall.2 fun arg hmem => hsame arg (by simp [hmem]), hsame arg (by simp) p hf]

theorem convert_call {node : Json} {exact : Bool} {op : String} {args : List Json}
    (hcall : call node = some (op, args)) :
    convert literals schema node exact =
      if op = "and" then convertAnd exact (args.map fun arg => convert literals schema arg exact)
      else if op = "or" then convertOr (args.map fun arg => convert literals schema arg exact)
      else if op = "not" then
        match args with
        | [child] => (convert literals schema child true).map .not
        | _ => none
      else convertLeaf literals schema op args := by
  rw [convert]
  split
  · rename_i hnone
    rw [hcall] at hnone
    cases hnone
  · rename_i op' args' hcall'
    rw [hcall] at hcall'
    cases hcall'
    simp only [map_attach_eq_pmap, pmap_eq_map]
    split_ifs
    · rfl
    · rfl
    · match args with
      | [] | [child] | _ :: _ :: _ => rfl
    · rfl

theorem truth_call {node : Json} {op : String} {args : List Json}
    (hcall : call node = some (op, args)) :
    truth literals schema meaning node row =
      if op = "and" then Truth.all (args.map fun arg => truth literals schema meaning arg row)
      else if op = "or" then Truth.any (args.map fun arg => truth literals schema meaning arg row)
      else if op = "not" then
        match args with
        | [child] => (truth literals schema meaning child row).not
        | _ => meaning.other node row
      else leafTruth literals schema meaning node op args row := by
  rw [truth]
  split
  · rename_i hnone
    rw [hcall] at hnone
    cases hnone
  · rename_i op' args' hcall'
    rw [hcall] at hcall'
    cases hcall'
    simp only [map_attach_eq_pmap, pmap_eq_map]
    split_ifs
    · rfl
    · rfl
    · match args with
      | [] | [child] | _ :: _ :: _ => rfl
    · rfl

theorem convert_none {exact : Bool} (hcall : call node = none) :
    convert literals schema node exact = none := by
  rw [convert]
  split
  · rfl
  · rename_i hsome
    rw [hcall] at hsome
    cases hsome

/-- In exact mode a node keeps its meaning; otherwise what it becomes is true wherever it is. -/
def Weakened (literals : Literals T V) (schema : List (String × DataType T)) (meaning : Meaning T V)
    (row : List String → Option V) (node : Json) : Prop :=
  (∀ p, convert literals schema node true = some p →
    p.eval meaning row = truth literals schema meaning node row) ∧
  (∀ p, convert literals schema node false = some p →
    truth literals schema meaning node row = some true → p.eval meaning row = some true)

theorem weakened_and (hcall : call node = some ("and", args))
    (ih : ∀ arg ∈ args, Weakened literals schema meaning row arg) :
    Weakened literals schema meaning row node := by
  unfold Weakened
  rw [convert_call hcall, convert_call hcall, truth_call hcall]
  simp only [if_true]
  constructor
  · intro p h
    unfold convertAnd at h
    split_ifs at h with hmissing
    rw [Bool.true_and, Bool.not_eq_true] at hmissing
    rw [combine_and h, kept_values hmissing fun arg hmem p hp => (ih arg hmem).1 p hp]
  · intro p h htrue
    unfold convertAnd at h
    simp only [Bool.false_and, Bool.false_eq_true, if_false] at h
    rw [combine_and h, Truth.all_eq_true]
    rw [Truth.all_eq_true] at htrue
    intro value hvalue
    obtain ⟨child, hchild, rfl⟩ := mem_map.mp hvalue
    rw [reduceOption_mem_iff, mem_map] at hchild
    obtain ⟨arg, hmem, hconvert⟩ := hchild
    exact (ih arg hmem).2 child hconvert (htrue _ (mem_map_of_mem hmem))

theorem weakened_or (hcall : call node = some ("or", args))
    (ih : ∀ arg ∈ args, Weakened literals schema meaning row arg) :
    Weakened literals schema meaning row node := by
  unfold Weakened
  rw [convert_call hcall, convert_call hcall, truth_call hcall]
  simp only [if_true, String.reduceEq, if_false]
  constructor
  · intro p h
    unfold convertOr at h
    split_ifs at h with hmissing
    rw [Bool.not_eq_true] at hmissing
    rw [combine_or h, kept_values hmissing fun arg hmem p hp => (ih arg hmem).1 p hp]
  · intro p h htrue
    unfold convertOr at h
    split_ifs at h with hmissing
    rw [Bool.not_eq_true, any_eq_false] at hmissing
    rw [combine_or h, Truth.any_eq_true, mem_map]
    rw [Truth.any_eq_true, mem_map] at htrue
    obtain ⟨arg, hmem, hvalue⟩ := htrue
    have hsome := hmissing _
      (mem_map_of_mem (f := fun arg => convert literals schema arg false) hmem)
    cases hconvert : convert literals schema arg false with
    | none => simp [hconvert] at hsome
    | some child =>
      refine ⟨child, ?_, (ih arg hmem).2 child hconvert hvalue⟩
      rw [reduceOption_mem_iff, ← hconvert]
      exact mem_map_of_mem (f := fun arg => convert literals schema arg false) hmem

theorem weakened_not (hcall : call node = some ("not", args))
    (ih : ∀ arg ∈ args, Weakened literals schema meaning row arg) :
    Weakened literals schema meaning row node := by
  have hsame : ∀ exact p, convert literals schema node exact = some p →
      p.eval meaning row = truth literals schema meaning node row := by
    intro exact p h
    rw [convert_call hcall] at h
    rw [truth_call hcall]
    simp only [if_true, String.reduceEq, if_false] at h ⊢
    match args, ih with
    | [], _ | _ :: _ :: _, _ => cases h
    | [child], ih =>
      rw [Option.map_eq_some_iff] at h
      obtain ⟨converted, hconvert, rfl⟩ := h
      rw [Predicate.eval, (ih child (by simp)).1 converted hconvert]
  exact ⟨hsame true, fun p h htrue => (hsame false p h).trans htrue⟩

variable (literals schema meaning row) in
/-- A conversion weakens with the right polarity, for any literals that do or do not convert. -/
theorem convert_weakens (node : Json) :
    (∀ p, convert literals schema node true = some p →
      p.eval meaning row = truth literals schema meaning node row) ∧
    (∀ p, convert literals schema node false = some p →
      truth literals schema meaning node row = some true → p.eval meaning row = some true) := by
  induction node using call_induct with
  | step node ih =>
    cases hcall : call node with
    | none =>
      rw [convert_none hcall, convert_none hcall]
      simp
    | some call =>
      obtain ⟨op, args⟩ := call
      have hargs := ih op args hcall
      by_cases hand : op = "and"
      · subst hand
        exact weakened_and hcall hargs
      · by_cases hor : op = "or"
        · subst hor
          exact weakened_or hcall hargs
        · by_cases hnot : op = "not"
          · subst hnot
            exact weakened_not hcall hargs
          · rw [convert_call hcall, convert_call hcall, truth_call hcall]
            simp only [hand, hor, hnot, if_false]
            exact ⟨fun p h => convertLeaf_truth h,
              fun p h htrue => (convertLeaf_truth h).trans htrue⟩

end
end

end DeltaSwamp.Skipping
