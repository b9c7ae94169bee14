import Mathlib.Algebra.Order.BigOperators.Group.Finset
import Mathlib.Data.Finset.Lattice.Fold
import Mathlib.Data.List.Sort
import Mathlib.Data.Rat.Floor
import Mathlib.Order.Interval.Finset.Nat

/-!
# Values that advance by steps of one sign

The order a step counts in, upwards or downwards, and where the terms of an
arithmetic progression stand in it.
-/

namespace DeltaSwamp.Progression

section
variable {R : Type} [CommRing R] [LinearOrder R] {step u v w : R}

/-- `v` comes after `w`, counting in the direction of `step`. -/
def Beyond (step w v : R) : Prop := 0 < (v - w) * step

/-- `v` is `w`, or comes after it. -/
def Within (step w v : R) : Prop := 0 ≤ (v - w) * step

theorem Within.refl (step w : R) : Within step w w := by simp [Within]

theorem Beyond.ne (h : Beyond step w v) : w ≠ v := by
  rintro rfl
  simp [Beyond] at h

variable [IsStrictOrderedRing R]

theorem Within.trans (h : Within step u v) (h' : Within step v w) : Within step u w := by
  have hsum : (w - u) * step = (v - u) * step + (w - v) * step := by ring
  unfold Within
  rw [hsum]
  exact add_nonneg h h'

theorem Beyond.of_within (h : Beyond step u v) (h' : Within step v w) : Beyond step u w := by
  have hsum : (w - u) * step = (v - u) * step + (w - v) * step := by ring
  unfold Beyond
  rw [hsum]
  exact add_pos_of_pos_of_nonneg h h'

theorem Within.beyond (h : Within step u v) (h' : Beyond step v w) : Beyond step u w := by
  have hsum : (w - u) * step = (v - u) * step + (w - v) * step := by ring
  unfold Beyond
  rw [hsum]
  exact add_pos_of_nonneg_of_pos h h'

end

section
variable {step first : Int} {i j : Int}

theorem beyond_step (h : step ≠ 0) (w : Int) : Beyond step w (w + step) := by
  have hsq : (w + step - w) * step = step * step := by ring
  unfold Beyond
  rw [hsq]
  exact mul_self_pos.mpr h

theorem beyond_term (h : step ≠ 0) (hij : i < j) :
    Beyond step (first + i * step) (first + j * step) := by
  have hprod : (first + j * step - (first + i * step)) * step = (j - i) * (step * step) := by ring
  unfold Beyond
  rw [hprod]
  exact mul_pos (by omega) (mul_self_pos.mpr h)

theorem within_term (hij : i ≤ j) : Within step (first + i * step) (first + j * step) := by
  have hprod : (first + j * step - (first + i * step)) * step = (j - i) * (step * step) := by ring
  unfold Within
  rw [hprod]
  exact mul_nonneg (by omega) (mul_self_nonneg step)

theorem term_inj (h : step ≠ 0) (hij : first + i * step = first + j * step) : i = j := by
  rcases lt_trichotomy i j with hlt | heq | hgt
  · exact absurd hij (beyond_term h hlt).ne
  · exact heq
  · exact absurd hij.symm (beyond_term h hgt).ne

/-- A value between two others is no smaller than one of them and no greater than the other. -/
theorem between {u v w : Int} (hstep : step ≠ 0) (huv : Within step u v) (hvw : Within step v w) :
    min u w ≤ v ∧ v ≤ max u w := by
  unfold Within at huv hvw
  rcases lt_or_gt_of_ne hstep with hneg | hpos
  · have h₁ : v - u ≤ 0 := by
      by_contra hlt
      exact absurd huv (not_le.mpr (mul_neg_of_pos_of_neg (by omega) hneg))
    have h₂ : w - v ≤ 0 := by
      by_contra hlt
      exact absurd hvw (not_le.mpr (mul_neg_of_pos_of_neg (by omega) hneg))
    omega
  · have h₁ : 0 ≤ v - u := by
      by_contra hlt
      exact absurd huv (not_le.mpr (mul_neg_of_neg_of_pos (by omega) hpos))
    have h₂ : 0 ≤ w - v := by
      by_contra hlt
      exact absurd hvw (not_le.mpr (mul_neg_of_neg_of_pos (by omega) hpos))
    omega

theorem nodup_terms (h : step ≠ 0) (first : Int) (n : Nat) :
    ((List.range n).map fun k : Nat => first + (k : Int) * step).Nodup := by
  refine List.Nodup.map (fun i j hij => ?_) List.nodup_range
  exact Int.natCast_inj.mp (term_inj h hij)

end

end DeltaSwamp.Progression
