import Mathlib.Algebra.Order.BigOperators.Group.Finset
import Mathlib.Data.Finset.Lattice.Fold
import Mathlib.Data.List.Sort
import Mathlib.Data.Rat.Floor
import Mathlib.Order.Interval.Finset.Nat

/-!
# Binary search

The search of a sorted list by halving an interval. Where the first element
is not above the one searched for, it ends at the last such element.
-/

namespace DeltaSwamp.Bisect

variable {α : Type} [LinearOrder α]

/-- The halving loop: `size` elements from `base` on are still in question. -/
def loop (xs : List α) (x : α) : Nat → Nat → Nat → Nat
  | 0, _, base => base
  | fuel + 1, size, base =>
    if 1 < size then
      let half := size / 2
      let mid := base + half
      loop xs x fuel (size - half) (if xs[mid]?.any (x < ·) then base else mid)
    else base

/-- `binary_search`: the index of a match, or where `x` would be inserted. -/
def binarySearch (xs : List α) (x : α) : Except Nat Nat :=
  match xs[loop xs x xs.length xs.length 0]? with
  | none => .error 0
  | some y =>
    let base := loop xs x xs.length xs.length 0
    if y = x then .ok base else .error (if y < x then base + 1 else base)

/-- `i` is the last index whose element is at most `x`. -/
def IsLast (xs : List α) (x : α) (i : Nat) : Prop :=
  (∃ y, xs[i]? = some y ∧ y ≤ x) ∧ ∀ j y, i < j → xs[j]? = some y → x < y

variable {xs : List α}

theorem IsLast.unique {x : α} {i j : Nat} (hi : IsLast xs x i) (hj : IsLast xs x j) : i = j := by
  obtain ⟨⟨y, hy, hyx⟩, habove⟩ := hi
  obtain ⟨⟨z, hz, hzx⟩, habove'⟩ := hj
  rcases Nat.lt_trichotomy i j with h | h | h
  · exact absurd hzx (not_le.mpr (habove j z h hz))
  · exact h
  · exact absurd hyx (not_le.mpr (habove' i y h hy))

theorem lt_of_sorted (h : xs.Pairwise (· < ·)) {i j : Nat} {y z : α} (hij : i < j)
    (hy : xs[i]? = some y) (hz : xs[j]? = some z) : y < z := by
  obtain ⟨hi, rfl⟩ := List.getElem?_eq_some_iff.mp hy
  obtain ⟨hj, rfl⟩ := List.getElem?_eq_some_iff.mp hz
  exact List.pairwise_iff_getElem.mp h i j hi hj hij

/-- What the loop keeps true: `base` holds nothing above `x`, and everything
from `base + size` on is above it. -/
theorem loop_isLast (h : xs.Pairwise (· < ·)) {x : α} {fuel size base : Nat} (hsize : 0 < size)
    (hfuel : size ≤ fuel + 1) (hlen : base + size ≤ xs.length)
    (hbase : ∃ y, xs[base]? = some y ∧ y ≤ x)
    (habove : ∀ j y, base + size ≤ j → xs[j]? = some y → x < y) :
    IsLast xs x (loop xs x fuel size base) := by
  induction fuel generalizing size base with
  | zero =>
    rw [loop]
    have hone : size = 1 := by omega
    subst hone
    exact ⟨hbase, fun j y hj => habove j y (by omega)⟩
  | succ fuel ih =>
    rw [loop]
    split_ifs with hmore
    · have hmid : base + size / 2 < xs.length := by omega
      obtain ⟨z, hz⟩ : ∃ z, xs[base + size / 2]? = some z :=
        ⟨_, List.getElem?_eq_getElem hmid⟩
      simp only [hz, Option.any_some, decide_eq_true_eq]
      split_ifs with hgreater
      · refine ih (by omega) (by omega) (by omega) hbase fun j y hj hy => ?_
        rcases Nat.eq_or_lt_of_le (show base + size / 2 ≤ j by omega) with rfl | hlt
        · rw [hz] at hy
          cases hy
          exact hgreater
        · exact lt_trans hgreater (lt_of_sorted h hlt hz hy)
      · refine ih (by omega) (by omega) (by omega) ⟨z, hz, not_lt.mp hgreater⟩ fun j y hj hy => ?_
        exact habove j y (by omega) hy
    · have hone : size = 1 := by omega
      subst hone
      exact ⟨hbase, fun j y hj => habove j y (by omega)⟩

theorem binarySearch_isLast {xs : List α} (h : xs.Pairwise (· < ·)) {x : α}
    (hfirst : ∃ y, xs[0]? = some y ∧ y ≤ x) :
    match binarySearch xs x with
    | .ok i => IsLast xs x i
    | .error i => IsLast xs x (i - 1) := by
  obtain ⟨y, hy, hyx⟩ := hfirst
  have hpos : 0 < xs.length := by
    obtain ⟨hlt, _⟩ := List.getElem?_eq_some_iff.mp hy
    exact hlt
  have habove : ∀ j z, 0 + xs.length ≤ j → xs[j]? = some z → x < z := by
    intro j z hj hz
    obtain ⟨hlt, _⟩ := List.getElem?_eq_some_iff.mp hz
    omega
  have hlast : IsLast xs x (loop xs x xs.length xs.length 0) :=
    loop_isLast h hpos (by omega) (by omega) ⟨y, hy, hyx⟩ habove
  have ⟨⟨z, hz, hzx⟩, _⟩ := hlast
  unfold binarySearch
  simp only [hz]
  by_cases heq : z = x
  · simp only [if_pos heq]
    exact hlast
  · have hlt : z < x := lt_of_le_of_ne hzx heq
    simp only [if_neg heq, if_pos hlt, Nat.add_sub_cancel]
    exact hlast

end DeltaSwamp.Bisect
