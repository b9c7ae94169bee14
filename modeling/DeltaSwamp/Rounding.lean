import Mathlib.Algebra.Order.Field.Rat
import Mathlib.Algebra.Order.Round
import Mathlib.Data.List.TakeWhile
import Mathlib.Data.Rat.Floor
import Mathlib.Tactic.Linarith
import Mathlib.Tactic.NormNum

/-!
# Rounding to whole numbers

Ties up (`round`), ties away from zero, ties to even, and toward zero; where they differ, and what
bounds the result.
-/

namespace DeltaSwamp.Rounding

/-- To the nearest whole number, ties away from zero. -/
def away (x : ℚ) : ℤ := if x < 0 then -round (-x) else round x

/-- Toward zero. -/
def truncate (x : ℚ) : ℤ := if x < 0 then ⌈x⌉ else ⌊x⌋

/-- To the nearest whole number, a tie to the even one. -/
def tiesToEven (x : ℚ) : ℤ :=
  if x - ⌊x⌋ < 1 / 2 ∨ (x - ⌊x⌋ = 1 / 2 ∧ ⌊x⌋ % 2 = 0) then ⌊x⌋ else ⌊x⌋ + 1

/-- Halfway between two whole numbers, below zero. -/
def NegativeTie (x : ℚ) : Prop := x < 0 ∧ (x + 1 / 2).den = 1

instance (x : ℚ) : Decidable (NegativeTie x) := inferInstanceAs (Decidable (_ ∧ _))

variable {x : ℚ}

theorem den_eq_one_iff : x.den = 1 ↔ ∃ n : ℤ, x = n :=
  ⟨fun h => ⟨x.num, (Rat.coe_int_num_of_den_eq_one h).symm⟩, by rintro ⟨n, rfl⟩; rfl⟩

theorem away_intCast (n : ℤ) : away n = n := by
  unfold away
  split_ifs
  · rw [← Int.cast_neg, round_intCast, neg_neg]
  · exact round_intCast n

theorem tiesToEven_intCast (n : ℤ) : tiesToEven n = n := by
  have hnear : (n : ℚ) - ⌊(n : ℚ)⌋ < 1 / 2 := by
    rw [Int.floor_intCast, sub_self]
    norm_num
  rw [tiesToEven, if_pos (.inl hnear), Int.floor_intCast]

theorem away_of_tie (h : NegativeTie x) : away x = round x - 1 := by
  obtain ⟨n, hn⟩ := den_eq_one_iff.mp h.2
  have hx : x = n - 1 / 2 := by linarith
  have hup : round x = n := by
    rw [round_eq, hn, Int.floor_intCast]
  have hdown : round (-x) = 1 - n := by
    rw [round_eq, show -x + 1 / 2 = ((1 - n : ℤ) : ℚ) by push_cast; linarith, Int.floor_intCast]
  rw [away, if_pos h.1, hup, hdown]
  omega

/-- The two roundings differ at negative ties only. -/
theorem away_of_not_tie (h : ¬ NegativeTie x) : away x = round x := by
  unfold away
  split_ifs with hx
  · obtain ⟨hlow, hhigh⟩ := round_eq_iff.mp (rfl : round x = round x)
    have hne : x ≠ round x - 1 / 2 := by
      intro heq
      exact h ⟨hx, den_eq_one_iff.mpr ⟨round x, by linarith⟩⟩
    have hlt := lt_of_le_of_ne hlow hne.symm
    have hneg : round (-x) = -round x := by
      rw [round_eq_iff, Set.mem_Ico]
      push_cast
      constructor <;> linarith
    rw [hneg, neg_neg]
  · rfl

variable {n : ℤ}

theorem le_round : n ≤ round x ↔ n - 1 / 2 ≤ x := by
  rw [round_eq, Int.le_floor]
  constructor <;> intro h <;> linarith

theorem round_le_neg : round x ≤ -n ↔ x < 1 / 2 - n := by
  rw [round_eq, ← Int.lt_add_one_iff, Int.floor_lt]
  push_cast
  constructor <;> intro h <;> linarith

/-- So far out that the nearest whole number, ties up, reaches the limit. -/
def Beyond (limit x : ℚ) : Prop := limit - 1 / 2 ≤ x ∨ x < 1 / 2 - limit

instance (limit x : ℚ) : Decidable (Beyond limit x) := inferInstanceAs (Decidable (_ ∨ _))

theorem le_abs_round : n ≤ |round x| ↔ Beyond n x := by
  rw [le_abs, le_round, le_neg, round_le_neg, Beyond]

theorem le_abs_away : n ≤ |away x| ↔ n - 1 / 2 ≤ |x| := by
  unfold away
  split_ifs with hx
  · rw [abs_neg, abs_of_neg hx]
    have hpos : 0 ≤ round (-x) := by
      rw [le_round]
      push_cast
      linarith
    rw [abs_of_nonneg hpos, le_round]
  · rw [not_lt] at hx
    have hpos : 0 ≤ round x := by
      rw [le_round]
      push_cast
      linarith
    rw [abs_of_nonneg hpos, abs_of_nonneg hx, le_round]

theorem abs_truncate_le : |(truncate x : ℚ)| ≤ |x| := by
  unfold truncate
  split_ifs with hx
  · have hle : (⌈x⌉ : ℚ) ≤ 0 := by exact_mod_cast Int.ceil_le.mpr (by simpa using hx.le)
    rw [abs_of_nonpos hle, abs_of_neg hx]
    exact neg_le_neg (Int.le_ceil x)
  · rw [not_lt] at hx
    have hle : (0 : ℚ) ≤ ⌊x⌋ := by exact_mod_cast Int.floor_nonneg.mpr hx
    rw [abs_of_nonneg hle, abs_of_nonneg hx]
    exact Int.floor_le x

end DeltaSwamp.Rounding
