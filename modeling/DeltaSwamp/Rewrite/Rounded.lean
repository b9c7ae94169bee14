import DeltaSwamp.Rewrite.Assign
import DeltaSwamp.Rounding
import Mathlib.Tactic.FieldSimp
import Mathlib.Tactic.Ring

/-!
# Numbers stored

`store_cast` of a column of decimals or floats into an integer or decimal column: what Arrow's
rounding makes of each value, and when that is what Spark stores.
-/

namespace DeltaSwamp.Rewrite

open Rounding List

inductive NumberType where
  | integer (signed : Bool) (bits : ℕ)
  | floating (bits : ℕ)
  | decimal (precision scale : ℕ)
  deriving DecidableEq

namespace NumberType

/-- The numbers of a type. A float is the exact number it is. -/
def holds : NumberType → ℚ → Bool
  | integer true bits, q => q.den = 1 ∧ -2 ^ (bits - 1) ≤ q ∧ q < 2 ^ (bits - 1)
  | integer false bits, q => q.den = 1 ∧ 0 ≤ q ∧ q < 2 ^ bits
  | floating _, _ => true
  | decimal precision scale, q => (q * 10 ^ scale).den = 1 ∧ |q * 10 ^ scale| < 10 ^ precision

def isInteger : NumberType → Bool
  | integer .. => true
  | _ => false

def isFloating : NumberType → Bool
  | floating _ => true
  | _ => false

def scale : NumberType → Option ℕ
  | decimal _ scale => some scale
  | _ => none

end NumberType

/-- A value of a column: a number of its type, or NULL. -/
abbrev Cell := Option (NumberType × ℚ)

/-- Rounded to a number of digits, ties up. -/
def halfUp (digits : ℕ) (q : ℚ) : ℚ := round (q * 10 ^ digits) / 10 ^ digits

/-- `refuses`: the decimals, by precision and scale, that Arrow does not round so far. -/
def roundsTo (refuses : ℕ → ℕ → ℕ → Bool) (digits : ℕ) : NumberType → Bool
  | .decimal precision scale => !refuses precision scale digits
  | _ => true

/-- `cast`, which raises on what does not fit. -/
def castTo (t : NumberType) : Cell → Option Cell
  | none => some none
  | some (_, q) => if t.holds q then some (some (t, q)) else none

@[simp] theorem castTo_some (t s : NumberType) (q : ℚ) :
    castTo t (some (s, q)) = if t.holds q then some (some (t, q)) else none := rfl

/-- Arrow's rounding of numbers keeps their type; where the result is none of it, it raises. -/
def numericArrow (refuses : ℕ → ℕ → ℕ → Bool) : Arrow NumberType Cell where
  null := none
  isNested _ := false
  isInteger := NumberType.isInteger
  isFloating := NumberType.isFloating
  scale := NumberType.scale
  placeholder _ v := v
  trunc v := v.map fun (t, q) => (t, (truncate q : ℚ))
  roundTowardsZero
    | none => some none
    | some (t, q) =>
      if roundsTo refuses 0 t ∧ t.holds (truncate q) then some (some (t, (truncate q : ℚ)))
      else none
  roundHalfUp
    | _, none => some none
    | digits, some (t, q) =>
      if roundsTo refuses digits t ∧ t.holds (halfUp digits q) then some (some (t, halfUp digits q))
      else none
  cast _ t := some (castTo t)
  placeholder_null _ := rfl
  trunc_null := rfl
  roundTowardsZero_null := rfl
  roundHalfUp_null _ := rfl
  cast_null := by
    rintro s t f h
    cases h
    rfl

/-- A column of a type. -/
def cells (t : NumberType) (values : List (Option ℚ)) : List Cell :=
  values.map (Option.map fun q => (t, q))

/-- Toward zero into an integer; to a decimal's digits, ties away from zero. -/
def spark : NumberType → ℚ → ℚ
  | .integer .., q => truncate q
  | .decimal _ scale, q => away (q * 10 ^ scale) / 10 ^ scale
  | .floating _, q => q

/-- Every value as Spark stores it, unless one does not fit. -/
def sparkStore (t : NumberType) (values : List (Option ℚ)) : Option (List Cell) :=
  if values.all fun v => v.all fun q => t.holds (spark t q) then
    some (values.map (Option.map fun q => (t, spark t q)))
  else none

/-- Whether a decimal's rounding up carries past its own precision. -/
def CarriesPast (precision scale digits : ℕ) (q : ℚ) : Prop :=
  scale ≤ precision + digits ∧ Beyond (10 ^ (precision + digits - scale)) (q * 10 ^ digits)

/-- Whether a column's numbers carry past its own type. -/
def Carries (s : NumberType) (digits : ℕ) (q : ℚ) : Prop :=
  match s with
  | .decimal own ownScale => CarriesPast own ownScale digits q
  | _ => False

/-- A value is too great however a tie goes, or no value is a negative tie or carries. -/
def Rounds (s : NumberType) (precision scale : ℕ) (values : List (Option ℚ)) : Prop :=
  (∃ q, some q ∈ values ∧ Beyond (10 ^ precision) (q * 10 ^ scale)) ∨
    ∀ q, some q ∈ values → ¬ NegativeTie (q * 10 ^ scale) ∧ ¬ Carries s scale q

/-- A value does not fit in any case. -/
def Overflows (t : NumberType) (values : List (Option ℚ)) : Prop :=
  ∃ q, some q ∈ values ∧ t.holds (spark t q) = false

/-- When the values of a column of type `s` are stored into one of type `t` as Spark does: rounded
toward zero unless Arrow refuses to, rescaled, or rounded to the digits kept. -/
def ValuesAsSpark (refuses : ℕ → ℕ → ℕ → Bool) (values : List (Option ℚ)) :
    NumberType → NumberType → Prop
  | .decimal precision scale, .integer signed bits =>
    refuses precision scale 0 = true → Overflows (.integer signed bits) values
  | .decimal own ownScale, .decimal precision scale =>
    ownScale ≤ scale ∨
      if refuses own ownScale scale = true then Overflows (.decimal precision scale) values
      else Rounds (.decimal own ownScale) precision scale values
  | .floating bits, .decimal precision scale => Rounds (.floating bits) precision scale values
  | _, _ => True

def StoresAsSpark (refuses : ℕ → ℕ → ℕ → Bool) (s t : NumberType) (values : List (Option ℚ)) :
    Prop :=
  s = t ∨ (∀ v ∈ values, v = none) ∨ ValuesAsSpark refuses values s t

section
variable {refuses : ℕ → ℕ → ℕ → Bool} {s t : NumberType} {q : ℚ}

variable {precision scale : ℕ}

theorem holds_decimal {q : ℚ} : (NumberType.decimal precision scale).holds q =
    true ↔ (q * 10 ^ scale).den = 1 ∧ |q * 10 ^ scale| < 10 ^ precision := by
  simp [NumberType.holds]

theorem holds_shifted (n : ℤ) :
    (NumberType.decimal precision scale).holds (n / 10 ^ scale) = true ↔ |n| < 10 ^ precision := by
  have hcancel : (n : ℚ) / 10 ^ scale * 10 ^ scale = n := by
    field_simp
  rw [holds_decimal, hcancel]
  constructor
  · rintro ⟨-, h⟩
    exact_mod_cast h
  · intro h
    exact ⟨rfl, by exact_mod_cast h⟩

theorem holds_halfUp :
    (NumberType.decimal precision scale).holds (halfUp scale q) = true ↔
      ¬ Beyond (10 ^ precision) (q * 10 ^ scale) := by
  have hbound := le_abs_round (x := q * 10 ^ scale) (n := 10 ^ precision)
  push_cast at hbound
  rw [halfUp, holds_shifted, ← hbound, not_le]

theorem holds_spark_decimal :
    (NumberType.decimal precision scale).holds (spark (.decimal precision scale) q) = true ↔
      |q * 10 ^ scale| < 10 ^ precision - 1 / 2 := by
  have hbound := le_abs_away (x := q * 10 ^ scale) (n := 10 ^ precision)
  push_cast at hbound
  rw [spark, holds_shifted, ← not_le, hbound, not_le]

variable {own ownScale digits : ℕ}

theorem holds_rescaled (hscale : digits < ownScale) (n : ℤ) :
    (NumberType.decimal own ownScale).holds (n / 10 ^ digits) = true ↔
      |n| * 10 ^ (ownScale - digits) < 10 ^ own := by
  have hsplit : (10 : ℚ) ^ ownScale = 10 ^ digits * 10 ^ (ownScale - digits) := by
    rw [← pow_add]
    congr 1
    omega
  have hcancel : (n : ℚ) / 10 ^ digits * 10 ^ ownScale =
      ((n * 10 ^ (ownScale - digits) : ℤ) : ℚ) := by
    rw [hsplit]
    push_cast
    field_simp
  rw [holds_decimal, hcancel]
  constructor
  · rintro ⟨-, h⟩
    rw [← Int.cast_abs, abs_mul, abs_of_pos (show (0 : ℤ) < 10 ^ (ownScale - digits) by positivity)]
      at h
    exact_mod_cast h
  · intro h
    refine ⟨rfl, ?_⟩
    rw [← Int.cast_abs, abs_mul, abs_of_pos (show (0 : ℤ) < 10 ^ (ownScale - digits) by positivity)]
    exact_mod_cast h

theorem abs_lt_of_holds (hscale : digits < ownScale)
    (hq : (NumberType.decimal own ownScale).holds q = true) :
    |q * 10 ^ digits| * 10 ^ (ownScale - digits) < 10 ^ own := by
  have hsplit : (10 : ℚ) ^ ownScale = 10 ^ digits * 10 ^ (ownScale - digits) := by
    rw [← pow_add]
    congr 1
    omega
  have hbound := (holds_decimal.mp hq).2
  rw [hsplit, ← mul_assoc, abs_mul,
    abs_of_pos (show (0 : ℚ) < 10 ^ (ownScale - digits) by positivity)]
    at hbound
  exact hbound

theorem holds_own (hscale : digits < ownScale)
    (hq : (NumberType.decimal own ownScale).holds q = true) :
    (NumberType.decimal own ownScale).holds (halfUp digits q) = true ↔
      ¬ CarriesPast own ownScale digits q := by
  have hbound := abs_lt_of_holds hscale hq
  rw [halfUp, holds_rescaled hscale, CarriesPast]
  by_cases hfits : ownScale ≤ own + digits
  · have hpow : (10 : ℤ) ^ own = 10 ^ (own + digits - ownScale) * 10 ^ (ownScale - digits) := by
      rw [← pow_add]
      congr 1
      omega
    have hround := le_abs_round (x := q * 10 ^ digits) (n := 10 ^ (own + digits - ownScale))
    push_cast at hround
    rw [hpow, mul_lt_mul_iff_left₀ (by positivity), ← not_le, hround]
    simp [hfits]
  · -- so few digits that it rounds to zero
    have hpow : (10 : ℚ) ^ own * 10 ≤ 10 ^ (ownScale - digits) := by
      rw [← pow_succ]
      exact pow_le_pow_right₀ (by norm_num) (by omega)
    have hsmall : |q * 10 ^ digits| < 1 / 10 := by
      have hpos : (0 : ℚ) < 10 ^ (ownScale - digits) := by positivity
      by_contra hle
      rw [not_lt] at hle
      have hmul := mul_le_mul_of_nonneg_right hle hpos.le
      linarith
    have hzero : round (q * 10 ^ digits) = 0 := by
      rw [round_eq_zero_iff, Set.mem_Ico]
      rw [abs_lt] at hsmall
      constructor <;> linarith
    simp [hzero, hfits]

theorem holds_truncate (hq : (NumberType.decimal precision scale).holds q = true) :
    (NumberType.decimal precision scale).holds (truncate q) = true := by
  obtain ⟨-, hbound⟩ := holds_decimal.mp hq
  have hpos : (0 : ℚ) < 10 ^ scale := by positivity
  refine holds_decimal.mpr ⟨?_, ?_⟩
  · exact den_eq_one_iff.mpr ⟨truncate q * 10 ^ scale, by push_cast; rfl⟩
  · rw [abs_mul, abs_of_pos hpos] at hbound ⊢
    exact (mul_le_mul_of_nonneg_right abs_truncate_le hpos.le).trans_lt hbound

theorem spark_of_holds (precision : ℕ) (hscale : ownScale ≤ scale)
    (hq : (NumberType.decimal own ownScale).holds q = true) :
    spark (.decimal precision scale) q = q := by
  obtain ⟨n, hn⟩ := den_eq_one_iff.mp (holds_decimal.mp hq).1
  have hsplit : (10 : ℚ) ^ scale = 10 ^ ownScale * 10 ^ (scale - ownScale) := by
    rw [← pow_add]
    congr 1
    omega
  have hwhole : q * 10 ^ scale = ((n * 10 ^ (scale - ownScale) : ℤ) : ℚ) := by
    rw [hsplit, ← mul_assoc, hn]
    push_cast
    rfl
  rw [spark, hwhole, away_intCast, ← hwhole]
  field_simp

variable (refuses s t) in
/-- What is stored of a number, where it is. -/
def storeOne (q : ℚ) : Option Cell :=
  (adjust (numericArrow refuses) s t (some (s, q))).bind (castTo t)

/-- A number stored as Spark does, or refused as there. -/
def AsSpark (t : NumberType) (q : ℚ) (out : Option Cell) : Prop :=
  out = if t.holds (spark t q) then some (some (t, spark t q)) else none

theorem storeOne_floating_integer {bits : ℕ} (ht : t.isInteger = true) :
    AsSpark t q (storeOne refuses (.floating bits) t q) := by
  cases t with
  | integer signed bits => rfl
  | floating bits => cases ht
  | decimal precision scale => cases ht

theorem storeOne_decimal_integer (ht : t.isInteger = true)
    (hq : (NumberType.decimal precision scale).holds q = true) :
    (refuses precision scale 0 = true → storeOne refuses (.decimal precision scale) t q = none) ∧
      (refuses precision scale 0 = false →
        AsSpark t q (storeOne refuses (.decimal precision scale) t q)) := by
  cases t with
  | floating bits => cases ht
  | decimal precision scale => cases ht
  | integer signed bits =>
    have htrunc := holds_truncate hq
    constructor
    · intro hrefuses
      simp [storeOne, adjust, numericArrow, NumberType.isInteger, NumberType.isFloating,
        NumberType.scale, roundsTo, hrefuses]
    · intro hrefuses
      simp [AsSpark, storeOne, adjust, numericArrow, NumberType.isInteger, NumberType.isFloating,
        NumberType.scale, roundsTo, hrefuses, htrunc, spark]
      rfl

theorem storeOne_rescaled (hscale : ownScale ≤ scale)
    (hq : (NumberType.decimal own ownScale).holds q = true) :
    AsSpark (.decimal precision scale) q
      (storeOne refuses (.decimal own ownScale) (.decimal precision scale) q) := by
  have hkept := spark_of_holds precision hscale hq
  have hnot : ¬ scale < ownScale := by omega
  simp [AsSpark, storeOne, adjust, numericArrow, NumberType.isInteger, NumberType.isFloating,
    NumberType.scale, hkept, hnot]

/-- Whether a type has its numbers rounded on the way into a decimal of some digits. -/
def IsRounded (s : NumberType) (digits : ℕ) : Prop :=
  s.isFloating = true ∨ ∃ own ownScale, s = .decimal own ownScale ∧ digits < ownScale

theorem storeOne_rounded (hs : IsRounded s scale) :
    storeOne refuses s (.decimal precision scale) q =
      if roundsTo refuses scale s ∧ s.holds (halfUp scale q) ∧
          (NumberType.decimal precision scale).holds (halfUp scale q) then
        some (some (.decimal precision scale, halfUp scale q))
      else none := by
  have hadjust : adjust (numericArrow refuses) s (.decimal precision scale) (some (s, q)) =
      if roundsTo refuses scale s ∧ s.holds (halfUp scale q) then some (some (s, halfUp scale q))
      else none := by
    obtain hfloat | ⟨own, ownScale, rfl, hscale⟩ := hs
    · simp [adjust, numericArrow, NumberType.isInteger, NumberType.scale, hfloat]
    · simp [adjust, numericArrow, NumberType.isInteger, NumberType.isFloating, NumberType.scale,
        hscale]
  rw [storeOne, hadjust]
  by_cases hrounds : roundsTo refuses scale s ∧ s.holds (halfUp scale q)
  · rw [if_pos hrounds]
    simp [hrounds]
  · rw [if_neg hrounds, if_neg fun h => hrounds ⟨h.1, h.2.1⟩]
    rfl

theorem holds_halfUp_own (hs : IsRounded s digits) (hq : s.holds q = true) :
    s.holds (halfUp digits q) = true ↔ ¬ Carries s digits q := by
  obtain hfloat | ⟨own, ownScale, rfl, hscale⟩ := hs
  · cases s with
    | integer signed bits => cases hfloat
    | floating bits => simp [NumberType.holds, Carries]
    | decimal precision scale => cases hfloat
  · exact holds_own hscale hq

end

section
variable {α β : Type} {f : α → Option β}

theorem mapM_eq_some_map {g : α → β} {xs : List α} :
    xs.mapM f = some (xs.map g) ↔ ∀ x ∈ xs, f x = some (g x) := by
  induction xs with
  | nil => simp
  | cons x xs ih =>
    rw [mapM_cons, forall_mem_cons, ← ih, map_cons]
    cases f x with
    | none => simp
    | some y =>
      cases xs.mapM f with
      | none => simp
      | some ys => simp

theorem mapM_eq_none {xs : List α} : xs.mapM f = none ↔ ∃ x ∈ xs, f x = none := by
  induction xs with
  | nil => simp
  | cons x xs ih =>
    simp only [mapM_cons, mem_cons, exists_eq_or_imp, ← ih]
    cases f x with
    | none => simp
    | some y =>
      cases xs.mapM f with
      | none => simp
      | some ys => simp

end

section
variable {refuses : ℕ → ℕ → ℕ → Bool} {s t : NumberType} {values : List (Option ℚ)}

/-- What is stored of a value: of NULL, NULL. -/
def storeValue (refuses : ℕ → ℕ → ℕ → Bool) (s t : NumberType) : Option ℚ → Option Cell
  | none => some none
  | some q => storeOne refuses s t q

theorem storeCast_cells (hne : s ≠ t) (hvalue : ∃ q, some q ∈ values) :
    storeCast (numericArrow refuses) s t (cells s values) =
      values.mapM (storeValue refuses s t) := by
  have hnull : ¬ ((cells s values).all fun v => v = (numericArrow refuses).null) = true := by
    obtain ⟨q, hq⟩ := hvalue
    intro hall
    have hcell := all_eq_true.mp hall _ (mem_map_of_mem hq)
    simp [numericArrow] at hcell
  have hcast : (numericArrow refuses).cast s t = some (castTo t) := rfl
  rw [storeCast, if_neg hne, if_neg hnull, hcast, Option.bind_some, cells, mapM_map]
  congr 1
  funext v
  cases v with
  | none =>
    have hadjust : adjust (numericArrow refuses) s t none = some none := adjust_null
    rw [Function.comp_apply, Option.map_none, hadjust]
    rfl
  | some q => rfl

/-- A column is stored as Spark does if its values are, or if one raises where Spark's does. -/
theorem mapM_eq_sparkStore : values.mapM (storeValue refuses s t) = sparkStore t values ↔
    ((∀ q, some q ∈ values → t.holds (spark t q) = true) →
      ∀ q, some q ∈ values → storeOne refuses s t q = some (some (t, spark t q))) ∧
    (Overflows t values → ∃ q, some q ∈ values ∧ storeOne refuses s t q = none) := by
  have hfits : (values.all fun v => v.all fun q => t.holds (spark t q)) = true ↔
      ∀ q, some q ∈ values → t.holds (spark t q) = true := by
    rw [all_eq_true]
    constructor
    · intro h q hq
      exact h _ hq
    · intro h v hv
      cases v with
      | none => rfl
      | some q => exact h q hv
  have hoverflows : Overflows t values ↔ ¬ ∀ q, some q ∈ values → t.holds (spark t q) = true := by
    simp [Overflows]
  rw [hoverflows]
  unfold sparkStore
  by_cases hall : ∀ q, some q ∈ values → t.holds (spark t q) = true
  · rw [if_pos (hfits.mpr hall), mapM_eq_some_map]
    constructor
    · intro h
      exact ⟨fun _ q hq => h _ hq, fun hnot => absurd hall hnot⟩
    · rintro ⟨h, -⟩ v hv
      cases v with
      | none => rfl
      | some q => exact h hall q hv
  · rw [if_neg (fun h => hall (hfits.mp h)), mapM_eq_none]
    constructor
    · rintro ⟨v, hv, hnone⟩
      cases v with
      | none => cases hnone
      | some q => exact ⟨fun h => absurd h hall, fun _ => ⟨q, hv, hnone⟩⟩
    · rintro ⟨-, h⟩
      obtain ⟨q, hq, hnone⟩ := h hall
      exact ⟨some q, hq, hnone⟩

theorem mapM_of_asSpark (h : ∀ q, some q ∈ values → AsSpark t q (storeOne refuses s t q)) :
    values.mapM (storeValue refuses s t) = sparkStore t values := by
  rw [mapM_eq_sparkStore]
  constructor
  · intro hall q hq
    have hone := h q hq
    rwa [AsSpark, if_pos (hall q hq)] at hone
  · rintro ⟨q, hq, hover⟩
    have hone := h q hq
    rw [AsSpark, hover] at hone
    exact ⟨q, hq, by simpa using hone⟩

theorem mapM_of_refused (hvalue : ∃ q, some q ∈ values)
    (h : ∀ q, some q ∈ values → storeOne refuses s t q = none) :
    values.mapM (storeValue refuses s t) = sparkStore t values ↔ Overflows t values := by
  rw [mapM_eq_sparkStore]
  obtain ⟨q, hq⟩ := hvalue
  constructor
  · rintro ⟨hall, -⟩
    by_contra hnot
    have hfits : ∀ q, some q ∈ values → t.holds (spark t q) = true := by
      simpa [Overflows] using hnot
    have hone := hall hfits q hq
    rw [h q hq] at hone
    cases hone
  · rintro ⟨p, hp, hover⟩
    refine ⟨fun hall => ?_, fun _ => ⟨q, hq, h q hq⟩⟩
    rw [hall p hp] at hover
    cases hover

variable {precision scale : ℕ}

theorem spark_eq_halfUp {q : ℚ} (h : ¬ NegativeTie (q * 10 ^ scale)) :
    spark (.decimal precision scale) q = halfUp scale q := by
  rw [spark, halfUp, away_of_not_tie h]

theorem spark_ne_halfUp {q : ℚ} (h : NegativeTie (q * 10 ^ scale)) :
    spark (.decimal precision scale) q ≠ halfUp scale q := by
  have hpos : (10 : ℚ) ^ scale ≠ 0 := by positivity
  rw [spark, halfUp, away_of_tie h, Ne, div_left_inj' hpos, Int.cast_inj]
  omega

theorem overflows_of_beyond {q : ℚ} (h : Beyond (10 ^ precision) (q * 10 ^ scale)) :
    (NumberType.decimal precision scale).holds (spark (.decimal precision scale) q) = false := by
  rw [Bool.eq_false_iff, Ne, holds_spark_decimal, not_lt]
  cases h with
  | inl h => exact h.trans (le_abs_self _)
  | inr h =>
    have hneg := neg_le_abs (q * 10 ^ scale)
    linarith

theorem storeOne_kept {q : ℚ} (hs : IsRounded s scale) (hrounds : roundsTo refuses scale s = true)
    (hq : s.holds q = true) (hcarries : ¬ Carries s scale q)
    (hbeyond : ¬ Beyond (10 ^ precision) (q * 10 ^ scale)) :
    storeOne refuses s (.decimal precision scale) q =
      some (some (.decimal precision scale, halfUp scale q)) := by
  rw [storeOne_rounded hs, if_pos]
  exact ⟨hrounds, (holds_halfUp_own hs hq).mpr hcarries, holds_halfUp.mpr hbeyond⟩

theorem storeOne_raised {q : ℚ} (hs : IsRounded s scale) (hq : s.holds q = true)
    (h : Carries s scale q ∨ Beyond (10 ^ precision) (q * 10 ^ scale)) :
    storeOne refuses s (.decimal precision scale) q = none := by
  rw [storeOne_rounded hs, if_neg]
  rintro ⟨-, hown, htarget⟩
  cases h with
  | inl h => exact (holds_halfUp_own hs hq).mp hown h
  | inr h => exact holds_halfUp.mp htarget h

/-- A column whose type a number carries past, yet not the target, holds nothing so great that a
tie could overflow the target. -/
theorem spark_fits_of_carries {q r : ℚ} (hs : IsRounded s scale) (hcarries : Carries s scale q)
    (hbeyond : ¬ Beyond (10 ^ precision) (q * 10 ^ scale)) (hr : s.holds r = true) :
    (NumberType.decimal precision scale).holds (spark (.decimal precision scale) r) = true := by
  obtain hfloat | ⟨own, ownScale, rfl, hscale⟩ := hs
  · cases s with
    | decimal own ownScale => cases hfloat
    | _ => cases hcarries
  · obtain ⟨hle, hpast⟩ := hcarries
    have hlt : own + scale - ownScale < precision := by
      by_contra hnot
      have hpow : (10 : ℚ) ^ precision ≤ 10 ^ (own + scale - ownScale) :=
        pow_le_pow_right₀ (by norm_num) (by omega)
      exact hbeyond (hpast.imp (fun h => by linarith) fun h => by linarith)
    have hpow : (10 : ℚ) ^ (own + scale - ownScale) * 10 ≤ 10 ^ precision := by
      rw [← pow_succ]
      exact pow_le_pow_right₀ (by norm_num) hlt
    have hone : (1 : ℚ) ≤ 10 ^ (own + scale - ownScale) := one_le_pow₀ (by norm_num)
    have hunits := abs_lt_of_holds hscale hr
    have hsplit : (10 : ℚ) ^ own = 10 ^ (own + scale - ownScale) * 10 ^ (ownScale - scale) := by
      rw [← pow_add]
      congr 1
      omega
    rw [hsplit, mul_lt_mul_iff_left₀ (by positivity)] at hunits
    rw [holds_spark_decimal]
    linarith

/-- A column that is rounded: as Spark does if a value is too great however a tie goes, or if none
is a negative tie and none carries past the column's own type. -/
theorem mapM_of_rounded (hs : IsRounded s scale) (hrounds : roundsTo refuses scale s = true)
    (hholds : ∀ q, some q ∈ values → s.holds q = true) :
    values.mapM (storeValue refuses s (.decimal precision scale)) =
        sparkStore (.decimal precision scale) values ↔ Rounds s precision scale values := by
  constructor
  · intro h
    rw [mapM_eq_sparkStore] at h
    by_cases hbeyond : ∃ q, some q ∈ values ∧ Beyond (10 ^ precision) (q * 10 ^ scale)
    · exact Or.inl hbeyond
    · have hwithin : ∀ q, some q ∈ values → ¬ Beyond (10 ^ precision) (q * 10 ^ scale) :=
        fun q hq hover => hbeyond ⟨q, hq, hover⟩
      have hfits : ∀ q, some q ∈ values → (NumberType.decimal precision scale).holds
          (spark (.decimal precision scale) q) = true := by
        by_contra hnot
        have hover : Overflows (.decimal precision scale) values := by
          simpa [Overflows] using hnot
        obtain ⟨q, hq, hnone⟩ := h.2 hover
        obtain ⟨r, hr, hfalse⟩ := hover
        have hcarries : Carries s scale q := by
          by_contra hcarries
          rw [storeOne_kept hs hrounds (hholds q hq) hcarries (hwithin q hq)] at hnone
          cases hnone
        rw [spark_fits_of_carries hs hcarries (hwithin q hq) (hholds r hr)] at hfalse
        cases hfalse
      refine Or.inr fun q hq => ?_
      have hone := h.1 hfits q hq
      have hcarries : ¬ Carries s scale q := by
        intro hcarries
        rw [storeOne_raised hs (hholds q hq) (Or.inl hcarries)] at hone
        cases hone
      refine ⟨fun htie => ?_, hcarries⟩
      rw [storeOne_kept hs hrounds (hholds q hq) hcarries (hwithin q hq)] at hone
      simp only [Option.some.injEq, Prod.mk.injEq, true_and] at hone
      exact spark_ne_halfUp htie hone.symm
  · rintro (⟨q, hq, hbeyond⟩ | hnone)
    · rw [mapM_eq_sparkStore]
      refine ⟨fun hall => ?_, fun _ => ⟨q, hq, storeOne_raised hs (hholds q hq) (Or.inr hbeyond)⟩⟩
      have hfits := hall q hq
      rw [overflows_of_beyond hbeyond] at hfits
      cases hfits
    · apply mapM_of_asSpark
      intro q hq
      obtain ⟨htie, hcarries⟩ := hnone q hq
      rw [AsSpark, spark_eq_halfUp htie]
      split_ifs with hfits
      · exact storeOne_kept hs hrounds (hholds q hq) hcarries (holds_halfUp.mp hfits)
      · rw [holds_halfUp, not_not] at hfits
        exact storeOne_raised hs (hholds q hq) (Or.inr hfits)

theorem storeCast_same (hs : s.isInteger = false) (hs' : s.isFloating = false)
    (hholds : ∀ q, some q ∈ values → s.holds q = true) :
    storeCast (numericArrow refuses) s s (cells s values) = sparkStore s values := by
  cases s with
  | integer signed bits => cases hs
  | floating bits => cases hs'
  | decimal precision scale =>
    have hkept : ∀ q, some q ∈ values → spark (.decimal precision scale) q = q :=
      fun q hq => spark_of_holds precision le_rfl (hholds q hq)
    have hfits : (values.all fun v => v.all fun q => (NumberType.decimal precision scale).holds
        (spark (.decimal precision scale) q)) = true := by
      rw [all_eq_true]
      intro v hv
      cases v with
      | none => rfl
      | some q => rw [Option.all_some, hkept q hv, hholds q hv]
    rw [storeCast, if_pos rfl, sparkStore, if_pos hfits, cells, Option.some.injEq]
    apply map_congr_left
    intro v hv
    cases v with
    | none => rfl
    | some q => rw [Option.map_some, Option.map_some, hkept q hv]

theorem storeCast_nulls (hne : s ≠ t) (hnull : ∀ v ∈ values, v = none) :
    storeCast (numericArrow refuses) s t (cells s values) = sparkStore t values := by
  have hcells : ((cells s values).all fun v => v = (numericArrow refuses).null) = true := by
    rw [all_eq_true]
    intro v hv
    obtain ⟨w, hw, rfl⟩ := mem_map.mp hv
    rw [hnull w hw]
    rfl
  have hfits : (values.all fun v => v.all fun q => t.holds (spark t q)) = true := by
    rw [all_eq_true]
    intro v hv
    rw [hnull v hv]
    rfl
  rw [storeCast, if_neg hne, if_pos hcells, sparkStore, if_pos hfits, cells, map_map,
    Option.some.injEq]
  apply map_congr_left
  intro v hv
  rw [hnull v hv]
  rfl

theorem mapM_iff_of_ne (hs : s.isInteger = false) (ht : t.isFloating = false)
    (hvalue : ∃ q, some q ∈ values) (hholds : ∀ q, some q ∈ values → s.holds q = true) :
    values.mapM (storeValue refuses s t) = sparkStore t values ↔
      ValuesAsSpark refuses values s t := by
  cases s with
  | integer signed bits => cases hs
  | floating width =>
    cases t with
    | floating bits => cases ht
    | integer signed bits =>
      simp only [ValuesAsSpark, iff_true]
      exact mapM_of_asSpark fun q hq => storeOne_floating_integer rfl
    | decimal precision scale => exact mapM_of_rounded (Or.inl rfl) rfl hholds
  | decimal own ownScale =>
    cases t with
    | floating bits => cases ht
    | integer signed bits =>
      rw [ValuesAsSpark]
      by_cases hrefuses : refuses own ownScale 0 = true
      · have hnone : ∀ q, some q ∈ values →
            storeOne refuses (.decimal own ownScale) (.integer signed bits) q = none :=
          fun q hq => (storeOne_decimal_integer rfl (hholds q hq)).1 hrefuses
        simpa [hrefuses] using mapM_of_refused hvalue hnone
      · rw [Bool.not_eq_true] at hrefuses
        simp only [hrefuses, Bool.false_eq_true, false_imp_iff, iff_true]
        exact mapM_of_asSpark fun q hq =>
          (storeOne_decimal_integer rfl (hholds q hq)).2 hrefuses
    | decimal precision scale =>
      rw [ValuesAsSpark]
      by_cases hscale : ownScale ≤ scale
      · simp only [hscale, true_or, iff_true]
        exact mapM_of_asSpark fun q hq => storeOne_rescaled hscale (hholds q hq)
      · have hrounded : IsRounded (.decimal own ownScale) scale :=
          Or.inr ⟨own, ownScale, rfl, by omega⟩
        simp only [hscale, false_or]
        by_cases hrefuses : refuses own ownScale scale = true
        · rw [if_pos hrefuses]
          apply mapM_of_refused hvalue
          intro q hq
          rw [storeOne_rounded hrounded, if_neg]
          simp [roundsTo, hrefuses]
        · rw [if_neg hrefuses]
          exact mapM_of_rounded hrounded (by simp [roundsTo, hrefuses]) hholds

/-- `store_cast` of decimals or floats into an integer or a decimal is Spark's store assignment,
exactly when the condition holds. -/
theorem storeCast_exact (refuses : ℕ → ℕ → ℕ → Bool) (s t : NumberType) (values : List (Option ℚ))
    (hs : s.isInteger = false) (ht : t.isFloating = false)
    (hholds : ∀ q, some q ∈ values → s.holds q = true) :
    storeCast (numericArrow refuses) s t (cells s values) = sparkStore t values ↔
      StoresAsSpark refuses s t values := by
  unfold StoresAsSpark
  by_cases hsame : s = t
  · subst hsame
    exact iff_of_true (storeCast_same hs ht hholds) (Or.inl rfl)
  · by_cases hnull : ∀ v ∈ values, v = none
    · exact iff_of_true (storeCast_nulls hsame hnull) (Or.inr (Or.inl hnull))
    · have hvalue : ∃ q, some q ∈ values := by
        by_contra hnone
        refine hnull fun v hv => ?_
        cases v with
        | none => rfl
        | some q => exact absurd ⟨q, hv⟩ hnone
      rw [storeCast_cells hsame hvalue, mapM_iff_of_ne hs ht hvalue hholds]
      simp [hsame, hnull]

end

/-- The decimals with no digit before the last one kept. -/
def noDigits (precision scale digits : ℕ) : Bool := precision + digits ≤ scale

/-- `0.125` of DECIMAL(4,3) into DECIMAL(3,2), and a NULL. -/
theorem storeCast_exact_up :
    storeCast (numericArrow noDigits) (.decimal 4 3) (.decimal 3 2)
        (cells (.decimal 4 3) [some (1 / 8), none]) =
      sparkStore (.decimal 3 2) [some (1 / 8), none] := by
  have hvalue : ∀ q, some q ∈ [some (1 / 8), none] → q = (1 / 8 : ℚ) := by simp
  refine (storeCast_exact noDigits (.decimal 4 3) (.decimal 3 2) [some (1 / 8), none] rfl rfl
    fun q hq => ?_).mpr (Or.inr (Or.inr (Or.inr (Or.inr fun q hq => ?_))))
  · rw [hvalue q hq]
    decide +kernel
  · rw [hvalue q hq]
    refine ⟨by decide +kernel, ?_⟩
    rintro ⟨-, hbeyond⟩
    revert hbeyond
    decide +kernel

/-- `-0.125` of DECIMAL(4,3) into DECIMAL(3,2) is `-0.12`, where Spark stores `-0.13`; and `9.99`
of DECIMAL(3,2) is refused by DECIMAL(10,1), which holds `10.0`. -/
theorem negative_tie_goes_up :
    storeCast (numericArrow noDigits) (.decimal 4 3) (.decimal 3 2)
        (cells (.decimal 4 3) [some (-1 / 8)]) = some [some (.decimal 3 2, -3 / 25)] ∧
      sparkStore (.decimal 3 2) [some (-1 / 8)] = some [some (.decimal 3 2, -13 / 100)] ∧
      storeCast (numericArrow noDigits) (.decimal 3 2) (.decimal 10 1)
        (cells (.decimal 3 2) [some (999 / 100)]) = none ∧
      sparkStore (.decimal 10 1) [some (999 / 100)] = some [some (.decimal 10 1, 10)] := by
  decide +kernel

end DeltaSwamp.Rewrite
