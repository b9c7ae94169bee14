import Mathlib.Data.Int.ConditionallyCompleteOrder
import Mathlib.Data.Int.LeastGreatest
import Mathlib.Order.Monotone.Basic
import Mathlib.Tactic.IntervalCases

/-!
# Calendars

Dates of a calendar with twelve months, and the day number each names. A
calendar differs from another in its leap years and in where day 0 falls.
-/

namespace DeltaSwamp

structure Date where
  year : Int
  month : Nat
  day : Nat
  deriving DecidableEq, Repr

structure Calendar where
  leap : Int → Bool
  /-- The number of the first day of a year. -/
  firstDay : Int → Int
  firstDay_succ : ∀ year,
    firstDay (year + 1) = firstDay year + 365 + if leap year then 1 else 0

namespace Calendar

def monthLength (leap : Bool) : Nat → Nat
  | 2 => if leap then 29 else 28
  | 4 | 6 | 9 | 11 => 30
  | _ => 31

theorem monthLength_le (leap : Bool) (month : Nat) : monthLength leap month ≤ 31 := by
  unfold monthLength
  split
  · cases leap <;> decide
  all_goals omega

/-- The days of a year before a month. -/
def daysBefore (leap : Bool) : Nat → Nat
  | 0 => 0
  | 1 => 0
  | month + 1 => daysBefore leap month + monthLength leap month

variable (calendar : Calendar)

structure Valid (date : Date) : Prop where
  month_pos : 1 ≤ date.month
  month_le : date.month ≤ 12
  day_pos : 1 ≤ date.day
  day_le : date.day ≤ monthLength (calendar.leap date.year) date.month

def dayNumber (date : Date) : Int :=
  calendar.firstDay date.year + daysBefore (calendar.leap date.year) date.month + (date.day - 1)

theorem daysBefore_succ (leap : Bool) {month : Nat} (hpos : 1 ≤ month) :
    daysBefore leap (month + 1) = daysBefore leap month + monthLength leap month := by
  cases month with
  | zero => omega
  | succ month => rfl

theorem daysBefore_le (leap : Bool) {first last : Nat} (hpos : 1 ≤ first) (hle : first ≤ last) :
    daysBefore leap first ≤ daysBefore leap last := by
  induction last, hle using Nat.le_induction with
  | base => exact Nat.le_refl _
  | succ last hle ih =>
    rw [daysBefore_succ leap (Nat.le_trans hpos hle)]
    exact Nat.le_trans ih (Nat.le_add_right _ _)

theorem daysBefore_year (leap : Bool) : daysBefore leap 13 = 365 + if leap then 1 else 0 := by
  cases leap <;> rfl

variable {calendar}

theorem Valid.in_year {date : Date} (h : calendar.Valid date) :
    calendar.firstDay date.year ≤ calendar.dayNumber date ∧
      calendar.dayNumber date < calendar.firstDay (date.year + 1) := by
  obtain ⟨hpos, hle, hday, hlast⟩ := h
  have hnext := daysBefore_succ (calendar.leap date.year) hpos
  have hyear := daysBefore_le (calendar.leap date.year) (by omega : 1 ≤ date.month + 1)
    (by omega : date.month + 1 ≤ 13)
  rw [daysBefore_year] at hyear
  rw [calendar.firstDay_succ]
  unfold dayNumber
  split_ifs at hyear ⊢ <;> omega

variable (calendar) in
theorem firstDay_strictMono : StrictMono calendar.firstDay := by
  apply strictMono_int_of_lt_succ
  intro year
  rw [calendar.firstDay_succ]
  split_ifs <;> omega

/-- No two dates have one day number. -/
theorem Valid.unique {first last : Date} (hfirst : calendar.Valid first)
    (hlast : calendar.Valid last) (hsame : calendar.dayNumber first = calendar.dayNumber last) :
    first = last := by
  obtain ⟨hfirstFrom, hfirstTo⟩ := hfirst.in_year
  obtain ⟨hlastFrom, hlastTo⟩ := hlast.in_year
  have hyear : first.year = last.year := by
    have hbefore : first.year < last.year + 1 := by
      rw [← (firstDay_strictMono calendar).lt_iff_lt]
      omega
    have hafter : last.year < first.year + 1 := by
      rw [← (firstDay_strictMono calendar).lt_iff_lt]
      omega
    omega
  obtain ⟨hpos, -, hday, hdays⟩ := hfirst
  obtain ⟨hpos', -, hday', hdays'⟩ := hlast
  unfold dayNumber at hsame
  rw [hyear] at hsame hdays
  have hmonth : first.month = last.month := by
    have hnext := daysBefore_succ (calendar.leap last.year) hpos
    have hnext' := daysBefore_succ (calendar.leap last.year) hpos'
    rcases Nat.lt_trichotomy first.month last.month with hlt | heq | hlt
    · have hle := daysBefore_le (calendar.leap last.year) (by omega : 1 ≤ first.month + 1) hlt
      omega
    · exact heq
    · have hle := daysBefore_le (calendar.leap last.year) (by omega : 1 ≤ last.month + 1) hlt
      omega
  have hdate : first.day = last.day := by
    rw [hmonth] at hsame
    omega
  cases first
  cases last
  simp_all

variable (calendar) in
theorem firstDay_above (years : Nat) :
    calendar.firstDay 0 + 365 * years ≤ calendar.firstDay years := by
  induction years with
  | zero => simp
  | succ years ih =>
    rw [Nat.cast_succ, calendar.firstDay_succ]
    split_ifs <;> omega

variable (calendar) in
theorem firstDay_below (years : Nat) :
    calendar.firstDay (-years) ≤ calendar.firstDay 0 - 365 * years := by
  induction years with
  | zero => simp
  | succ years ih =>
    have hnext := calendar.firstDay_succ (-(years + 1 : Nat))
    have hyear : -((years + 1 : Nat) : Int) + 1 = -(years : Int) := by omega
    rw [hyear] at hnext
    split_ifs at hnext <;> omega

variable (calendar) in
theorem exists_year (number : Int) :
    ∃ year, calendar.firstDay year ≤ number ∧ number < calendar.firstDay (year + 1) := by
  have hbounded : ∃ bound, ∀ year, calendar.firstDay year ≤ number → year ≤ bound := by
    refine ⟨(number - calendar.firstDay 0).toNat, ?_⟩
    intro year hle
    by_cases hneg : year ≤ 0
    · omega
    · have habove := firstDay_above calendar year.toNat
      rw [Int.toNat_of_nonneg (by omega)] at habove
      omega
  have hinhabited : ∃ year, calendar.firstDay year ≤ number := by
    refine ⟨-((calendar.firstDay 0 - number).toNat : Int), ?_⟩
    have hbelow := firstDay_below calendar (calendar.firstDay 0 - number).toNat
    omega
  obtain ⟨year, hle, hgreatest⟩ := Int.exists_greatest_of_bdd hbounded hinhabited
  refine ⟨year, hle, ?_⟩
  by_contra hge
  have := hgreatest (year + 1) (by omega)
  omega

theorem exists_month (leap : Bool) {days : Nat} (hdays : days < daysBefore leap 13) :
    ∃ month, 1 ≤ month ∧ month ≤ 12 ∧ daysBefore leap month ≤ days ∧
      days < daysBefore leap month + monthLength leap month := by
  have hfind : ∀ last, 1 ≤ last → days < daysBefore leap last → ∃ month, 1 ≤ month ∧
      month < last ∧ daysBefore leap month ≤ days ∧
        days < daysBefore leap month + monthLength leap month := by
    intro last hpos hlt
    induction last, hpos using Nat.le_induction with
    | base => simp [daysBefore] at hlt
    | succ last hpos ih =>
      by_cases hbefore : days < daysBefore leap last
      · obtain ⟨month, hmonth, hless, hrest⟩ := ih hbefore
        exact ⟨month, hmonth, by omega, hrest⟩
      · rw [daysBefore_succ leap hpos] at hlt
        exact ⟨last, hpos, by omega, by omega, hlt⟩
  obtain ⟨month, hpos, hlt, hrest⟩ := hfind 13 (by omega) hdays
  exact ⟨month, hpos, by omega, hrest⟩

variable (calendar) in
/-- Every day number has a date. -/
theorem exists_date (number : Int) :
    ∃ date, calendar.Valid date ∧ calendar.dayNumber date = number := by
  obtain ⟨year, hfrom, hto⟩ := exists_year calendar number
  rw [calendar.firstDay_succ] at hto
  have hdays : (number - calendar.firstDay year).toNat < daysBefore (calendar.leap year) 13 := by
    rw [daysBefore_year]
    split_ifs at hto ⊢ <;> omega
  obtain ⟨month, hpos, hle, hbefore, hafter⟩ := exists_month _ hdays
  refine ⟨⟨year, month, (number - calendar.firstDay year).toNat -
    daysBefore (calendar.leap year) month + 1⟩, ⟨hpos, hle, by simp, ?_⟩, ?_⟩
  · dsimp only
    omega
  · unfold dayNumber
    dsimp only
    omega

end Calendar
end DeltaSwamp
