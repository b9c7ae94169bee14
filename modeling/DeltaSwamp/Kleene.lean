import Mathlib.Algebra.Order.BigOperators.Group.Finset
import Mathlib.Data.Finset.Lattice.Fold
import Mathlib.Data.List.Sort
import Mathlib.Data.Rat.Floor
import Mathlib.Order.Interval.Finset.Nat

/-!
# Three-valued logic

Truth values with an unknown, the connectives SQL computes with them, and when
one truth value is a safe stand-in for another.
-/

namespace DeltaSwamp

/-- TRUE, FALSE, or `none` for unknown (NULL). -/
abbrev Truth := Option Bool

namespace Truth

def not (v : Truth) : Truth := v.map fun b => !b

def and : Truth → Truth → Truth
  | some false, _ => some false
  | some true, w => w
  | none, some false => some false
  | none, _ => none

def or : Truth → Truth → Truth
  | some true, _ => some true
  | some false, w => w
  | none, some true => some true
  | none, _ => none

def all (vs : List Truth) : Truth := vs.foldr and (some true)

def any (vs : List Truth) : Truth := vs.foldr or (some false)

/-- `if_else(c, v, w)` of two columns: unknown where the condition is. -/
def ifElse : Truth → Truth → Truth → Truth
  | some true, v, _ => v
  | some false, _, w => w
  | none, _, _ => none

def coalesce (v w : Truth) : Truth := v.orElse fun _ => w

section
variable {v w v' w' : Truth} {vs ws : List Truth}

theorem ext_iff : v = w ↔ (v = some true ↔ w = some true) ∧ (v = some false ↔ w = some false) := by
  rcases v with _ | _ | _ <;> rcases w with _ | _ | _ <;> simp

@[simp] theorem and_eq_true : v.and w = some true ↔ v = some true ∧ w = some true := by
  rcases v with _ | _ | _ <;> rcases w with _ | _ | _ <;> simp [and]

@[simp] theorem and_eq_false : v.and w = some false ↔ v = some false ∨ w = some false := by
  rcases v with _ | _ | _ <;> rcases w with _ | _ | _ <;> simp [and]

@[simp] theorem or_eq_true : v.or w = some true ↔ v = some true ∨ w = some true := by
  rcases v with _ | _ | _ <;> rcases w with _ | _ | _ <;> simp [or]

@[simp] theorem or_eq_false : v.or w = some false ↔ v = some false ∧ w = some false := by
  rcases v with _ | _ | _ <;> rcases w with _ | _ | _ <;> simp [or]

@[simp] theorem all_eq_true : all vs = some true ↔ ∀ v ∈ vs, v = some true := by
  induction vs with
  | nil => simp [all]
  | cons v vs ih => simpa [all] using fun _ => ih

@[simp] theorem any_eq_true : any vs = some true ↔ some true ∈ vs := by
  induction vs with
  | nil => simp [any]
  | cons v vs ih =>
    simp only [any, List.foldr_cons, or_eq_true, List.mem_cons] at ih ⊢
    exact or_congr eq_comm ih

@[simp] theorem any_eq_false : any vs = some false ↔ ∀ v ∈ vs, v = some false := by
  induction vs with
  | nil => simp [any]
  | cons v vs ih => simpa [any] using fun _ => ih

end

instance : Std.Associative and where
  assoc u v w := by
    rw [ext_iff]
    simp [and_assoc, or_assoc]

instance : Std.Associative or where
  assoc u v w := by
    rw [ext_iff]
    simp [and_assoc, or_assoc]

theorem all_singleton (v : Truth) : all [v] = v := by
  rcases v with _ | _ | _ <;> rfl

theorem any_singleton (v : Truth) : any [v] = v := by
  rcases v with _ | _ | _ <;> rfl

theorem any_append (vs ws : List Truth) : any (vs ++ ws) = (any vs).or (any ws) := by
  rw [ext_iff]
  simp [or_imp, forall_and]

theorem any_flatten (groups : List (List Truth)) : any groups.flatten = any (groups.map any) := by
  induction groups with
  | nil => rfl
  | cons group groups ih =>
    rw [List.flatten_cons, any_append, ih]
    rfl

theorem any_congr_mem {vs ws : List Truth} (h : ∀ v, v ∈ vs ↔ v ∈ ws) : any vs = any ws := by
  rw [ext_iff]
  simp [h]

end Truth

end DeltaSwamp
