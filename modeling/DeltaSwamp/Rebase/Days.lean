import DeltaSwamp.Calendar

/-!
# The legacy calendar's days

`rebase.rs`: days and microseconds of Spark's hybrid calendar as the proleptic
Gregorian calendar counts them, by Spark's table of switches.
-/

namespace DeltaSwamp.Rebase

/-- What a signed machine integer holds. -/
def InRange (bits : Nat) (n : Int) : Prop := -2 ^ (bits - 1) ≤ n ∧ n < 2 ^ (bits - 1)

instance (bits : Nat) (n : Int) : Decidable (InRange bits n) := inferInstanceAs (Decidable (_ ∧ _))

/-- A machine integer's arithmetic, which has no result past its bounds. -/
def checked (bits : Nat) (n : Int) : Option Int := if InRange bits n then some n else none

def switchDays : List Int :=
  [-719164, -682945, -646420, -609895, -536845, -500320, -463795, -390745, -354220, -317695,
    -244645, -208120, -171595, -141427]

def diffDays : List Int := [2, 1, 0, -1, -2, -3, -4, -5, -6, -7, -8, -9, -10, 0]

def lastSwitchDay : Int := -141427

def microsPerDay : Int := 86400000000

/-- The scan for the last switch not after a day, back from an index. -/
def switchIndex (days : Int) : Nat → Nat
  | 0 => 0
  | i + 1 => if days < switchDays.getD (i + 1) 0 then switchIndex days i else i + 1

def julianToGregorianDays (days : Int) : Option Int :=
  if lastSwitchDay ≤ days then some days
  else checked 32 (days + diffDays.getD (switchIndex days (switchDays.length - 1)) 0)

/-- `micros` keeps its time of day; the day is cast to 32 bits on the way. -/
def julianToGregorianMicrosUtc (micros : Int) : Option Int :=
  let day := micros / microsPerDay
  if lastSwitchDay ≤ day then some micros
  else do
    let rebased ← julianToGregorianDays (day.bmod (2 ^ 32))
    let whole ← checked 64 (rebased * microsPerDay)
    checked 64 (whole + micros % microsPerDay)

/-- Day 0 is 1 January 1970 of the Gregorian calendar in both. -/
def julian : Calendar where
  leap year := year % 4 == 0
  firstDay year := 365 * (year - 1) + (year - 1) / 4 - 719164
  firstDay_succ year := by
    simp only [beq_iff_eq]
    split_ifs <;> omega

def gregorian : Calendar where
  leap year := year % 4 == 0 && (year % 100 != 0 || year % 400 == 0)
  firstDay year := 365 * (year - 1) + (year - 1) / 4 - (year - 1) / 100 + (year - 1) / 400 - 719162
  firstDay_succ year := by
    simp only [Bool.and_eq_true, Bool.or_eq_true, beq_iff_eq, bne_iff_ne]
    split_ifs <;> omega

/-- 5 October 1582 in the one is the 15th in the other. -/
example : julian.dayNumber ⟨1582, 10, 5⟩ = lastSwitchDay ∧
    gregorian.dayNumber ⟨1582, 10, 15⟩ = lastSwitchDay ∧
    gregorian.dayNumber ⟨1970, 1, 1⟩ = 0 := by decide

/-- The Gregorian date of the same name; a 29 February it lacks is 1 March. -/
def sameName (date : Date) : Date :=
  if date.month = 2 ∧ date.day = 29 ∧ gregorian.leap date.year = false then ⟨date.year, 3, 1⟩
  else date

/-- The year a date falls in when years start in March. -/
def marchYear (date : Date) : Int := if date.month ≤ 2 then date.year - 1 else date.year

/-- The days the calendars are apart, constant from one March to the next. -/
def gap (year : Int) : Int := 2 - year / 100 + year / 400

theorem julian_leap (year : Int) : julian.leap year = true ↔ year % 4 = 0 := by
  simp [julian]

theorem gregorian_leap (year : Int) : gregorian.leap year = true ↔
    year % 4 = 0 ∧ (year % 100 ≠ 0 ∨ year % 400 = 0) := by
  simp [gregorian]

theorem julian_firstDay (year : Int) :
    julian.firstDay year = 365 * (year - 1) + (year - 1) / 4 - 719164 := rfl

theorem gregorian_firstDay (year : Int) : gregorian.firstDay year =
    365 * (year - 1) + (year - 1) / 4 - (year - 1) / 100 + (year - 1) / 400 - 719162 := rfl

theorem daysBefore_leap (leap : Bool) {month : Nat} (hle : month ≤ 12) :
    Calendar.daysBefore leap month =
      Calendar.daysBefore false month + if leap = true ∧ 3 ≤ month then 1 else 0 := by
  revert month
  cases leap <;> decide

section
variable {year : Int}

theorem gregorian_missing (hgregorian : gregorian.leap year = false) :
    gregorian.dayNumber ⟨year, 3, 1⟩ = julian.dayNumber ⟨year, 2, 29⟩ + gap (year - 1) := by
  have hcommon := (gregorian_leap year).not.mp (by simp [hgregorian])
  unfold Calendar.dayNumber gap
  rw [julian_firstDay, gregorian_firstDay, hgregorian]
  dsimp only
  simp only [Calendar.daysBefore, Calendar.monthLength, Bool.false_eq_true, if_false]
  omega

theorem gregorian_sameName {date : Date} (h : julian.Valid date) :
    gregorian.dayNumber (sameName date) = julian.dayNumber date + gap (marchYear date) := by
  obtain ⟨hpos, hle, -, hday⟩ := h
  obtain ⟨year, month, day⟩ := date
  dsimp only at hpos hle hday
  unfold sameName
  dsimp only
  split_ifs with hmissing
  · obtain ⟨rfl, rfl, hgregorian⟩ := hmissing
    exact gregorian_missing hgregorian
  · have hjulian := julian_leap year
    have hgregorian := gregorian_leap year
    have hdays := daysBefore_leap (julian.leap year) hle
    have hdays' := daysBefore_leap (gregorian.leap year) hle
    unfold Calendar.dayNumber marchYear gap
    rw [julian_firstDay, gregorian_firstDay]
    dsimp only
    rw [hdays, hdays']
    simp only [hjulian, hgregorian]
    split_ifs <;> omega

/-- The first day of a March. -/
def marchDay (year : Int) : Int := 365 * (year - 1) + year / 4 - 719105

theorem marchYear_bounds {date : Date} (h : julian.Valid date) :
    marchDay (marchYear date) ≤ julian.dayNumber date ∧
      julian.dayNumber date < marchDay (marchYear date + 1) := by
  have hyear := h.in_year
  have hdays := @Calendar.daysBefore_le (julian.leap date.year)
  obtain ⟨hpos, hle, hday, hlast⟩ := h
  have hnext := Calendar.daysBefore_succ (julian.leap date.year) hpos
  have hleap := julian_leap date.year
  have hthird := daysBefore_leap (julian.leap date.year) (by omega : 3 ≤ 12)
  have hfirst : Calendar.daysBefore false 3 = 59 := rfl
  rw [julian_firstDay, julian_firstDay] at hyear
  unfold Calendar.dayNumber at hyear ⊢
  rw [julian_firstDay] at hyear ⊢
  simp only [hfirst, hleap] at hthird
  unfold marchYear marchDay
  by_cases hmonth : date.month ≤ 2
  · have hbefore := hdays (by omega : 1 ≤ date.month + 1) (by omega : date.month + 1 ≤ 3)
    rw [if_pos hmonth]
    split_ifs at hthird <;> omega
  · have hafter := hdays (by omega : 1 ≤ 3) (by omega : 3 ≤ date.month)
    rw [if_neg hmonth]
    split_ifs at hthird <;> omega

theorem switchIndex_spec (days : Int) (i : Nat) :
    (switchIndex days i = 0 ∨ switchDays.getD (switchIndex days i) 0 ≤ days) ∧
      switchIndex days i ≤ i ∧
      (switchIndex days i < i → days < switchDays.getD (switchIndex days i + 1) 0) := by
  induction i with
  | zero => exact ⟨Or.inl rfl, Nat.le_refl _, fun h => absurd h (Nat.lt_irrefl _)⟩
  | succ i ih =>
    obtain ⟨hfrom, hle, hnext⟩ := ih
    rw [switchIndex]
    split_ifs with hbefore
    · refine ⟨hfrom, by omega, ?_⟩
      intro _
      by_cases hlast : switchIndex days i = i
      · rw [hlast]
        exact hbefore
      · exact hnext (by omega)
    · exact ⟨Or.inr (not_lt.mp hbefore), Nat.le_refl _, fun h => absurd h (Nat.lt_irrefl _)⟩

theorem marchDay_strictMono : StrictMono marchDay := by
  apply strictMono_int_of_lt_succ
  intro year
  unfold marchDay
  omega

variable {days : Int}

theorem marchDay_le_iff (hyear : marchDay year ≤ days) (hnext : days < marchDay (year + 1))
    (other : Int) : marchDay other ≤ days ↔ other ≤ year := by
  constructor
  · intro hreached
    have hlt := marchDay_strictMono.lt_iff_lt.mp (Int.lt_of_le_of_lt hreached hnext)
    omega
  · intro hle
    exact Int.le_trans (marchDay_strictMono.le_iff_le.mpr hle) hyear

theorem diffDays_gap (hfrom : -719164 ≤ days) (hto : days < lastSwitchDay)
    (hyear : marchDay year ≤ days) (hnext : days < marchDay (year + 1)) :
    diffDays.getD (switchIndex days (switchDays.length - 1)) 0 = gap year := by
  obtain ⟨hindex, hle, hafter⟩ := switchIndex_spec days 13
  have hlength : switchDays.length - 1 = 13 := rfl
  rw [hlength]
  generalize switchIndex days 13 = index at hindex hle hafter ⊢
  -- Each switch but the first and the last is a 1 March the Gregorian year has no leap day before.
  have hreached := marchDay_le_iff hyear hnext
  have hcentury : ∀ century, marchDay (100 * century) ≤ days ↔ century ≤ year / 100 := by
    intro century
    rw [hreached]
    omega
  have hquarter : year / 400 = year / 100 / 4 := by
    rw [Int.ediv_ediv_of_nonneg (by decide)]
    rfl
  have hcase : ∀ first next diff : Int, marchDay (100 * first) ≤ days →
      days < marchDay (100 * next) →
      (∀ century, first ≤ century → century < next → 2 - century + century / 4 = diff) →
      diff = gap year := by
    intro first next diff hfirst hlast hsame
    unfold gap
    rw [hquarter]
    refine (hsame (year / 100) ((hcentury first).mp hfirst) ?_).symm
    rw [← not_le, ← hcentury next]
    exact not_le.mpr hlast
  unfold lastSwitchDay at hto
  unfold marchDay at hcase
  interval_cases index <;> simp [switchDays, diffDays] at hindex hafter ⊢
  · exact hcase 0 1 2 (by omega) (by omega) (by intros; omega)
  · exact hcase 1 2 1 (by omega) (by omega) (by intros; omega)
  · exact hcase 2 3 0 (by omega) (by omega) (by intros; omega)
  · exact hcase 3 5 (-1) (by omega) (by omega) (by intros; omega)
  · exact hcase 5 6 (-2) (by omega) (by omega) (by intros; omega)
  · exact hcase 6 7 (-3) (by omega) (by omega) (by intros; omega)
  · exact hcase 7 9 (-4) (by omega) (by omega) (by intros; omega)
  · exact hcase 9 10 (-5) (by omega) (by omega) (by intros; omega)
  · exact hcase 10 11 (-6) (by omega) (by omega) (by intros; omega)
  · exact hcase 11 13 (-7) (by omega) (by omega) (by intros; omega)
  · exact hcase 13 14 (-8) (by omega) (by omega) (by intros; omega)
  · exact hcase 14 15 (-9) (by omega) (by omega) (by intros; omega)
  · exact hcase 15 16 (-10) (by omega) (by omega) (by intros; omega)
  · omega

theorem checked_some {bits : Nat} {n : Int} (h : InRange bits n) : checked bits n = some n :=
  if_pos h

/-- The days the table moves a day by. -/
def shift (days : Int) : Int := diffDays.getD (switchIndex days (switchDays.length - 1)) 0

theorem shift_bounds (days : Int) : -10 ≤ shift days ∧ shift days ≤ 2 := by
  obtain ⟨-, hle, -⟩ := switchIndex_spec days 13
  have hlength : switchDays.length - 1 = 13 := rfl
  unfold shift
  rw [hlength]
  generalize switchIndex days 13 = index at hle
  interval_cases index <;> decide

theorem shift_early (h : days < -719164) : shift days = 2 := by
  obtain ⟨hindex, hle, -⟩ := switchIndex_spec days 13
  have hlength : switchDays.length - 1 = 13 := rfl
  unfold shift
  rw [hlength]
  generalize switchIndex days 13 = index at hindex hle
  interval_cases index <;> simp [switchDays, diffDays] at hindex ⊢ <;> omega

theorem exists_marchYear (days : Int) :
    ∃ year, marchDay year ≤ days ∧ days < marchDay (year + 1) := by
  obtain ⟨date, hvalid, rfl⟩ := Calendar.exists_date julian days
  exact ⟨marchYear date, marchYear_bounds hvalid⟩

theorem moved_mono_table {first last : Int} (hfrom : -719164 ≤ first) (hle : first ≤ last)
    (hto : last < lastSwitchDay) : first + shift first ≤ last + shift last := by
  obtain ⟨year, hyear, hnext⟩ := exists_marchYear first
  obtain ⟨year', hyear', hnext'⟩ := exists_marchYear last
  unfold shift
  rw [diffDays_gap hfrom (by omega) hyear hnext, diffDays_gap (by omega) hto hyear' hnext']
  have hyears := (marchDay_le_iff hyear' hnext' year).mp (by omega)
  by_cases hsame : year = year'
  · rw [hsame]
    omega
  · have hmarch := marchDay_strictMono.le_iff_le.mpr (by omega : year + 1 ≤ year')
    unfold marchDay at *
    unfold gap
    omega

theorem moved_mono {first last : Int} (hle : first ≤ last) (hto : last < lastSwitchDay) :
    first + shift first ≤ last + shift last := by
  by_cases hfirst : first < -719164
  · rw [shift_early hfirst]
    by_cases hlast : last < -719164
    · rw [shift_early hlast]
      omega
    · have hmono := moved_mono_table (Int.le_refl _) (not_lt.mp hlast) hto
      have hswitch : shift (-719164) = 2 := by decide
      omega
  · exact moved_mono_table (not_lt.mp hfirst) hle hto

theorem moved_lt (h : days < lastSwitchDay) : days + shift days < lastSwitchDay := by
  have hmono := moved_mono (by omega : days ≤ lastSwitchDay - 1) (by omega)
  have hlast : lastSwitchDay - 1 + shift (lastSwitchDay - 1) < lastSwitchDay := by decide
  omega

theorem days_late (h : lastSwitchDay ≤ days) : julianToGregorianDays days = some days :=
  if_pos h

theorem days_moved (hrange : InRange 32 days) (h : days < lastSwitchDay) :
    julianToGregorianDays days = some (days + shift days) := by
  have hbounds := shift_bounds days
  have hmoved := moved_lt h
  unfold julianToGregorianDays
  rw [if_neg (by omega)]
  apply checked_some
  unfold InRange at hrange ⊢
  unfold lastSwitchDay at hmoved
  have hfirst : -719164 ≤ days ∨ shift days = 2 := by
    by_cases hearly : days < -719164
    · exact Or.inr (shift_early hearly)
    · exact Or.inl (not_lt.mp hearly)
  change -2147483648 ≤ days ∧ days < 2147483648 at hrange
  change -2147483648 ≤ days + shift days ∧ days + shift days < 2147483648
  omega

end

theorem sameName_valid {date : Date} (h : julian.Valid date) : gregorian.Valid (sameName date) := by
  obtain ⟨hpos, hle, hday, hlast⟩ := h
  obtain ⟨year, month, day⟩ := date
  dsimp only at hpos hle hday hlast
  unfold sameName
  dsimp only
  split_ifs with hmissing
  · exact ⟨by simp, by simp, by simp, by simp [Calendar.monthLength]⟩
  · refine ⟨hpos, hle, hday, ?_⟩
    dsimp only
    by_cases hmonth : month = 2
    · subst hmonth
      simp only [Calendar.monthLength] at hlast ⊢
      cases hleap : gregorian.leap year with
      | true =>
        simp only [if_true]
        split_ifs at hlast <;> omega
      | false =>
        have hother : ¬ day = 29 := fun hday => hmissing ⟨rfl, hday, hleap⟩
        simp only [Bool.false_eq_true, if_false]
        split_ifs at hlast <;> omega
    · have hsame : ∀ leap leap', Calendar.monthLength leap month =
          Calendar.monthLength leap' month := by
        intro leap leap'
        unfold Calendar.monthLength
        split <;> first | exact absurd rfl hmonth | rfl
      rw [hsame _ (julian.leap year)]
      exact hlast

variable {days : Int}

theorem days_converted (hfrom : -719164 ≤ days) (hto : days < lastSwitchDay) :
    ∃ date, julian.Valid date ∧ julian.dayNumber date = days ∧
      (∀ other, julian.Valid other → julian.dayNumber other = days → other = date) ∧
      gregorian.Valid (sameName date) ∧
      julianToGregorianDays days = some (gregorian.dayNumber (sameName date)) := by
  obtain ⟨date, hvalid, rfl⟩ := Calendar.exists_date julian days
  refine ⟨date, hvalid, rfl, fun other hother hsame => hother.unique hvalid hsame,
    sameName_valid hvalid, ?_⟩
  have hrange : InRange 32 (julian.dayNumber date) := by
    unfold InRange
    unfold lastSwitchDay at hto
    change -2147483648 ≤ _ ∧ _ < 2147483648
    omega
  obtain ⟨hyear, hnext⟩ := marchYear_bounds hvalid
  rw [days_moved hrange hto, gregorian_sameName hvalid]
  unfold shift
  rw [diffDays_gap hfrom hto hyear hnext]

theorem days_some (hrange : InRange 32 days) :
    ∃ moved, julianToGregorianDays days = some moved ∧ days - 10 ≤ moved ∧ moved ≤ days + 2 ∧
      (days < lastSwitchDay → moved = days + shift days) ∧
        (lastSwitchDay ≤ days → moved = days) := by
  by_cases hlate : lastSwitchDay ≤ days
  · exact ⟨days, days_late hlate, by omega, by omega, by omega, fun _ => rfl⟩
  · have hbounds := shift_bounds days
    exact ⟨days + shift days, days_moved hrange (by omega), by omega, by omega, fun _ => rfl,
      by omega⟩

variable {first last : Int}

theorem days_mono {moved moved' : Int} (hfirst : InRange 32 first) (hlast : InRange 32 last)
    (hle : first ≤ last) (hmoved : julianToGregorianDays first = some moved)
    (hmoved' : julianToGregorianDays last = some moved') : moved ≤ moved' := by
  by_cases hlate : lastSwitchDay ≤ last
  · rw [days_late hlate, Option.some.injEq] at hmoved'
    by_cases hfirstLate : lastSwitchDay ≤ first
    · rw [days_late hfirstLate, Option.some.injEq] at hmoved
      omega
    · rw [days_moved hfirst (by omega), Option.some.injEq] at hmoved
      have hlt := moved_lt (by omega : first < lastSwitchDay)
      omega
  · rw [days_moved hlast (by omega), Option.some.injEq] at hmoved'
    rw [days_moved hfirst (by omega), Option.some.injEq] at hmoved
    have hmono := moved_mono hle (by omega : last < lastSwitchDay)
    omega

theorem day_range {micros : Int} (h : InRange 64 micros) : InRange 32 (micros / microsPerDay) := by
  unfold InRange microsPerDay at *
  change -9223372036854775808 ≤ micros ∧ micros < 9223372036854775808 at h
  change -2147483648 ≤ _ ∧ _ < 2147483648
  omega

theorem bmod_range (h : InRange 32 days) : days.bmod (2 ^ 32) = days := by
  unfold InRange at h
  change -2147483648 ≤ days ∧ days < 2147483648 at h
  apply Int.bmod_eq_of_le <;> omega

theorem micros_converted {micros : Int} (h : InRange 64 micros) :
    ∃ moved result, julianToGregorianDays (micros / microsPerDay) = some moved ∧
      julianToGregorianMicrosUtc micros = some result ∧ result / microsPerDay = moved ∧
      result % microsPerDay = micros % microsPerDay := by
  have hday := day_range h
  unfold julianToGregorianMicrosUtc
  dsimp only
  by_cases hlate : lastSwitchDay ≤ micros / microsPerDay
  · rw [if_pos hlate]
    exact ⟨_, micros, days_late hlate, rfl, rfl, rfl⟩
  · rw [if_neg hlate, bmod_range hday]
    obtain ⟨moved, hmoved, hmin, hmax, hshift, -⟩ := days_some hday
    have hearly : -719164 ≤ micros / microsPerDay ∨ moved = micros / microsPerDay + 2 := by
      by_cases hfirst : micros / microsPerDay < -719164
      · rw [hshift (by omega), shift_early hfirst]
        exact Or.inr rfl
      · exact Or.inl (by omega)
    unfold InRange at h
    change -9223372036854775808 ≤ micros ∧ micros < 9223372036854775808 at h
    unfold lastSwitchDay microsPerDay at *
    have hwhole : checked 64 (moved * 86400000000) = some (moved * 86400000000) := by
      apply checked_some
      change -9223372036854775808 ≤ _ ∧ _ < 9223372036854775808
      omega
    have hsum : checked 64 (moved * 86400000000 + micros % 86400000000) =
        some (moved * 86400000000 + micros % 86400000000) := by
      apply checked_some
      change -9223372036854775808 ≤ _ ∧ _ < 9223372036854775808
      omega
    rw [hmoved]
    refine ⟨moved, moved * 86400000000 + micros % 86400000000, rfl, ?_, by omega, by omega⟩
    simp only [Option.bind_eq_bind, Option.bind_some, hwhole, hsum]

/-- A Julian 29 February that the Gregorian calendar lacks. -/
def MissingLeapDay (days : Int) : Prop :=
  ∃ year, julian.Valid ⟨year, 2, 29⟩ ∧ gregorian.leap year = false ∧
    julian.dayNumber ⟨year, 2, 29⟩ = days

theorem missing_before_march {year : Int} (hcentury : year % 100 = 0) (hmissing : year % 400 ≠ 0) :
    MissingLeapDay (marchDay year - 1) := by
  have hjulian : julian.leap year = true := by
    rw [julian_leap]
    omega
  refine ⟨year, ⟨by simp, by simp, by simp, by simp [Calendar.monthLength, hjulian]⟩, ?_, ?_⟩
  · rw [← Bool.not_eq_true, gregorian_leap]
    omega
  · rw [julian_leap] at hjulian
    unfold Calendar.dayNumber marchDay
    rw [julian_firstDay]
    simp only [Calendar.daysBefore, Calendar.monthLength]
    omega

theorem moved_same (hlt : first < last) (hto : last < lastSwitchDay)
    (hsame : first + shift first = last + shift last) :
    last = first + 1 ∧ -719164 ≤ first ∧ first < lastSwitchDay ∧ MissingLeapDay first := by
  have hswitch : shift (-719164) = 2 := by decide
  by_cases hlast : last < -719164
  · rw [shift_early (by omega), shift_early hlast] at hsame
    omega
  · have hmono := moved_mono_table (Int.le_refl _) (not_lt.mp hlast) hto
    by_cases hfirst : first < -719164
    · rw [shift_early hfirst] at hsame
      omega
    · obtain ⟨year, hyear, hnext⟩ := exists_marchYear first
      obtain ⟨year', hyear', hnext'⟩ := exists_marchYear last
      unfold shift at hsame
      rw [diffDays_gap (by omega) (by omega) hyear hnext,
        diffDays_gap (by omega) hto hyear' hnext'] at hsame
      have hyears := (marchDay_le_iff hyear' hnext' year).mp (by omega)
      have hdiffer : year ≠ year' := by
        rintro rfl
        omega
      have hmarch := marchDay_strictMono.le_iff_le.mpr (by omega : year + 1 ≤ year')
      have hsucc : year' = year + 1 := by
        unfold marchDay at hyear hnext hyear' hnext'
        unfold gap at hsame
        omega
      subst hsucc
      unfold gap at hsame
      have hlastDay : last = marchDay (year + 1) := by omega
      have hfirstDay : first = marchDay (year + 1) - 1 := by omega
      refine ⟨by omega, by omega, by omega, ?_⟩
      rw [hfirstDay]
      exact missing_before_march (by omega) (by omega)

theorem days_same {moved : Int} (hfirst : InRange 32 first) (hlast : InRange 32 last)
    (hlt : first < last) (hmoved : julianToGregorianDays first = some moved)
    (hmoved' : julianToGregorianDays last = some moved) :
    last = first + 1 ∧ -719164 ≤ first ∧ first < lastSwitchDay ∧ MissingLeapDay first := by
  by_cases hlate : lastSwitchDay ≤ last
  · rw [days_late hlate, Option.some.injEq] at hmoved'
    by_cases hfirstLate : lastSwitchDay ≤ first
    · rw [days_late hfirstLate, Option.some.injEq] at hmoved
      omega
    · rw [days_moved hfirst (by omega), Option.some.injEq] at hmoved
      have hbefore := moved_lt (by omega : first < lastSwitchDay)
      omega
  · rw [days_moved hlast (by omega), Option.some.injEq] at hmoved'
    rw [days_moved hfirst (by omega), Option.some.injEq] at hmoved
    exact moved_same hlt (by omega) (by omega)

/-- The rebase is the conversion of the Julian calendar's names to the Gregorian calendar's days: it
leaves days from the last switch on, keeps the order of days, keeps the time of day, and no step of
its arithmetic is past its machine integer's bounds. Microseconds keep their order but for a time on
a leap day the Gregorian calendar lacks, among the days it moves, and an earlier time of the next
day. -/
theorem rebase_converts :
    (∀ days, -719164 ≤ days → days < lastSwitchDay →
      ∃ date, julian.Valid date ∧ julian.dayNumber date = days ∧
        (∀ other, julian.Valid other → julian.dayNumber other = days → other = date) ∧
        gregorian.Valid (sameName date) ∧
        julianToGregorianDays days = some (gregorian.dayNumber (sameName date))) ∧
    (∀ days, lastSwitchDay ≤ days → julianToGregorianDays days = some days) ∧
    (∀ first last, InRange 32 first → InRange 32 last → first ≤ last →
      ∃ moved moved', julianToGregorianDays first = some moved ∧
        julianToGregorianDays last = some moved' ∧ moved ≤ moved') ∧
    (∀ micros, InRange 64 micros →
      ∃ moved result, julianToGregorianDays (micros / microsPerDay) = some moved ∧
        julianToGregorianMicrosUtc micros = some result ∧ result / microsPerDay = moved ∧
        result % microsPerDay = micros % microsPerDay) ∧
    (∀ first last, InRange 64 first → InRange 64 last → first ≤ last →
      ∃ result result', julianToGregorianMicrosUtc first = some result ∧
        julianToGregorianMicrosUtc last = some result' ∧
        (result ≤ result' ∨ -719164 ≤ first / microsPerDay ∧
          first / microsPerDay < lastSwitchDay ∧ MissingLeapDay (first / microsPerDay) ∧
          last / microsPerDay = first / microsPerDay + 1 ∧
          last % microsPerDay < first % microsPerDay)) := by
  refine ⟨fun _ => days_converted, fun _ => days_late, ?_, fun _ => micros_converted, ?_⟩
  · intro first last hfirst hlast hle
    obtain ⟨moved, hmoved, -⟩ := days_some hfirst
    obtain ⟨moved', hmoved', -⟩ := days_some hlast
    exact ⟨moved, moved', hmoved, hmoved', days_mono hfirst hlast hle hmoved hmoved'⟩
  · intro first last hfirst hlast hle
    obtain ⟨moved, result, hmoved, hresult, hday, htime⟩ := micros_converted hfirst
    obtain ⟨moved', result', hmoved', hresult', hday', htime'⟩ := micros_converted hlast
    refine ⟨result, result', hresult, hresult', ?_⟩
    have hdayLe : first / microsPerDay ≤ last / microsPerDay := Int.ediv_le_ediv (by decide) hle
    have hdays := days_mono (day_range hfirst) (day_range hlast) hdayLe hmoved hmoved'
    by_cases hsame : first / microsPerDay = last / microsPerDay
    · rw [hsame, hmoved', Option.some.injEq] at hmoved
      left
      unfold microsPerDay at *
      omega
    · by_cases hstrict : moved < moved'
      · left
        unfold microsPerDay at *
        omega
      · obtain rfl : moved = moved' := by omega
        obtain ⟨hnext, hfrom, hto, hmissing⟩ :=
          days_same (day_range hfirst) (day_range hlast) (by omega) hmoved hmoved'
        by_cases hearlier : last % microsPerDay < first % microsPerDay
        · exact Or.inr ⟨hfrom, hto, hmissing, hnext, hearlier⟩
        · left
          unfold microsPerDay at *
          omega

/-- Noon of 29 February 100 and the midnight after it change their order. -/
theorem leap_day_reordered : ∃ first last result result', InRange 64 first ∧ InRange 64 last ∧
    first ≤ last ∧ julianToGregorianMicrosUtc first = some result ∧
    julianToGregorianMicrosUtc last = some result' ∧ result' < result :=
  ⟨-682946 * microsPerDay + 43200000000, -682945 * microsPerDay,
    -682944 * microsPerDay + 43200000000, -682944 * microsPerDay, by decide, by decide, by decide,
    by decide, by decide, by decide⟩

end DeltaSwamp.Rebase
