import Mathlib.Algebra.Order.BigOperators.Group.Finset
import Mathlib.Data.Finset.Lattice.Fold
import Mathlib.Data.List.Sort
import Mathlib.Data.Rat.Floor
import Mathlib.Order.Interval.Finset.Nat

/-!
# JSON values

Values as a parser hands them over, with the lookups and updates a program
makes in an object, and the integers it reads out of a number.
-/

namespace DeltaSwamp

inductive Json where
  | null
  | bool (b : Bool)
  | int (n : Int)
  /-- A number that is no integer of 64 bits, as it is spelled. -/
  | float (shown : String)
  | str (s : String)
  | arr (items : List Json)
  | obj (fields : List (String × Json))
  deriving Repr

/-- The members of an object. -/
abbrev Fields := List (String × Json)

namespace Json

mutual

def beq : Json → Json → Bool
  | .null, .null => true
  | .bool a, .bool b => a == b
  | .int a, .int b => a == b
  | .float a, .float b => a == b
  | .str a, .str b => a == b
  | .arr a, .arr b => beqItems a b
  | .obj a, .obj b => beqFields a b
  | _, _ => false

def beqItems : List Json → List Json → Bool
  | [], [] => true
  | a :: as, b :: bs => beq a b && beqItems as bs
  | _, _ => false

def beqFields : List (String × Json) → List (String × Json) → Bool
  | [], [] => true
  | (k, a) :: as, (l, b) :: bs => k == l && (beq a b && beqFields as bs)
  | _, _ => false

end

mutual

theorem beq_iff : ∀ a b : Json, beq a b = true ↔ a = b
  | .arr a, .arr b => by simp [beq, beqItems_iff a b]
  | .obj a, .obj b => by simp [beq, beqFields_iff a b]
  | .null, b => by cases b <;> simp [beq]
  | .bool a, b => by cases b <;> simp [beq]
  | .int a, b => by cases b <;> simp [beq]
  | .float a, b => by cases b <;> simp [beq]
  | .str a, b => by cases b <;> simp [beq]
  | .arr a, .null | .arr a, .bool _ | .arr a, .int _ | .arr a, .float _ | .arr a, .str _
  | .arr a, .obj _ => by simp [beq]
  | .obj a, .null | .obj a, .bool _ | .obj a, .int _ | .obj a, .float _ | .obj a, .str _
  | .obj a, .arr _ => by simp [beq]

theorem beqItems_iff : ∀ as bs : List Json, beqItems as bs = true ↔ as = bs
  | [], [] => by simp [beqItems]
  | [], _ :: _ => by simp [beqItems]
  | _ :: _, [] => by simp [beqItems]
  | a :: as, b :: bs => by simp [beqItems, beq_iff a b, beqItems_iff as bs]

theorem beqFields_iff : ∀ as bs : List (String × Json), beqFields as bs = true ↔ as = bs
  | [], [] => by simp [beqFields]
  | [], _ :: _ => by simp [beqFields]
  | _ :: _, [] => by simp [beqFields]
  | (k, a) :: as, (l, b) :: bs => by
    simp [beqFields, beq_iff a b, beqFields_iff as bs, and_assoc]

end

instance : DecidableEq Json := fun a b => decidable_of_iff _ (beq_iff a b)

def get (v : Json) (key : String) : Option Json :=
  match v with
  | .obj fields => fields.lookup key
  | _ => none

def asI64 : Json → Option Int
  | .int n => if -2 ^ 63 ≤ n ∧ n < 2 ^ 63 then some n else none
  | _ => none

def asU64 : Json → Option Nat
  | .int n => if 0 ≤ n ∧ n < 2 ^ 64 then some n.toNat else none
  | _ => none

def asStr : Json → Option String
  | .str s => some s
  | _ => none

def asBool : Json → Option Bool
  | .bool b => some b
  | _ => none

def asArray : Json → Option (List Json)
  | .arr items => some items
  | _ => none

end Json

namespace Fields

def insert (fields : Fields) (key : String) (value : Json) : Fields :=
  (key, value) :: fields.filter fun f => f.1 ≠ key

def remove (fields : Fields) (key : String) : Fields := fields.filter fun f => f.1 ≠ key

theorem lookup_remove (fields : Fields) (key other : String) :
    (remove fields key).lookup other = if other = key then none else fields.lookup other := by
  induction fields with
  | nil => simp [remove]
  | cons f fields ih =>
    obtain ⟨k, v⟩ := f
    unfold remove at ih ⊢
    by_cases hk : k = key
    · rw [List.filter_cons_of_neg (by simp [hk]), ih]
      split_ifs with ho
      · rfl
      · have hbeq : (other == k) = false := beq_false_of_ne (hk ▸ ho)
        rw [List.lookup_cons, hbeq]
    · rw [List.filter_cons_of_pos (by simpa using hk), List.lookup_cons, List.lookup_cons, ih]
      cases hbeq : other == k with
      | false => rfl
      | true => simp [eq_of_beq hbeq, hk]

theorem lookup_insert (fields : Fields) (key other : String) (value : Json) :
    (insert fields key value).lookup other =
      if other = key then some value else fields.lookup other := by
  by_cases ho : other = key
  · simp [insert, ho]
  · have hbeq : (other == key) = false := beq_false_of_ne ho
    rw [insert, List.lookup_cons, hbeq, if_neg ho]
    exact (lookup_remove fields key other).trans (if_neg ho)

end Fields

end DeltaSwamp
