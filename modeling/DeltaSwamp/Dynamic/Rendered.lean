import DeltaSwamp.Ansi.Tokens
import DeltaSwamp.Arrow.Cast
import DeltaSwamp.Predicate.Value
import DeltaSwamp.Rebase.Days

/-!
# Partition values as SQL text

`_sql_string`, `_sql_ident`, `_sql_value` and `_sql_literal` of `engine/deltars.py`, and
the Python values they render: how `str` writes a decimal, a date and a datetime.
-/

namespace DeltaSwamp.Dynamic

open List

open Predicate (Prim Value Fl)
open Rebase (gregorian)

/-- A `Decimal`: its sign, digits and exponent. -/
structure PyDecimal where
  negative : Bool
  coefficient : ℕ
  exponent : ℤ
  deriving DecidableEq

def PyDecimal.value (d : PyDecimal) : ℚ :=
  (if d.negative then -1 else 1) * ((d.coefficient : ℚ) * 10 ^ d.exponent)

/-- `"%+d"` -/
def plusInt (n : ℤ) : Text := (if n < 0 then '-' else '+') :: Numeral.natural n.natAbs

/-- Digits with the point behind `dotplace` of them, and an exponent unless it is zero. -/
def placed (digits : Text) (dotplace exp : ℤ) : Text :=
  (if dotplace ≤ 0 then ['0']
    else if digits.length ≤ dotplace then
      digits ++ List.replicate (dotplace - digits.length).toNat '0'
    else digits.take dotplace.toNat) ++
  ((if dotplace ≤ 0 then '.' :: (List.replicate (-dotplace).toNat '0' ++ digits)
    else if digits.length ≤ dotplace then []
    else '.' :: digits.drop dotplace.toNat) ++
  if exp = 0 then [] else 'E' :: plusInt exp)

/-- `Decimal.__str__` -/
def PyDecimal.str (d : PyDecimal) : Text :=
  let int := Numeral.natural d.coefficient
  let leftdigits := d.exponent + int.length
  let dotplace := if d.exponent ≤ 0 ∧ -6 < leftdigits then leftdigits else 1
  Numeral.minus d.negative ++ placed int dotplace (leftdigits - dotplace)

/-- A `date`. -/
structure PyDate where
  date : Date
  valid : gregorian.Valid date
  year_pos : 1 ≤ date.year
  year_le : date.year ≤ 9999

/-- A naive `datetime`, or the wall clock of an aware one. -/
structure Wall where
  day : PyDate
  hour : ℕ
  minute : ℕ
  second : ℕ
  micro : ℕ
  hour_lt : hour < 24
  minute_lt : minute < 60
  second_lt : second < 60
  micro_lt : micro < 10 ^ 6

/-- Microseconds since the epoch, were the wall clock UTC's. -/
def Wall.micros (w : Wall) : ℤ :=
  (((gregorian.dayNumber w.day.date * 24 + w.hour) * 60 + w.minute) * 60 + w.second) * 10 ^ 6 +
    w.micro

/-- A `datetime`; an aware one has the offset of its zone, in seconds. -/
structure Stamp where
  wall : Wall
  offset : Option ℤ
  offset_lt : ∀ seconds ∈ offset, seconds.natAbs < 86400

/-- Microseconds since the epoch; a naive value is wall-clock time taken as UTC. -/
def Stamp.micros (s : Stamp) : ℤ := s.wall.micros - s.offset.getD 0 * 10 ^ 6

inductive PyValue where
  | none
  | bool (b : Bool)
  | int (n : ℤ)
  | float (x : Fl)
  | decimal (d : PyDecimal)
  | str (s : Text)
  | date (d : PyDate)
  | datetime (s : Stamp)
  | bytes (bs : List (Fin 256))

/-- `date.isoformat` -/
def PyDate.isoformat (d : PyDate) : Text :=
  Numeral.field 4 d.date.year.toNat ++ '-' :: (Numeral.field 2 d.date.month ++
    '-' :: Numeral.field 2 d.date.day)

/-- `time.isoformat` -/
def Wall.clock (w : Wall) : Text :=
  Numeral.field 2 w.hour ++ ':' :: (Numeral.field 2 w.minute ++ ':' :: (Numeral.field 2 w.second ++
    if w.micro = 0 then [] else '.' :: Numeral.field 6 w.micro))

/-- `+HH:MM[:SS]` -/
def offsetText (seconds : ℤ) : Text :=
  let size := seconds.natAbs
  (if seconds < 0 then '-' else '+') :: (Numeral.field 2 (size / 3600) ++
    ':' :: (Numeral.field 2 (size / 60 % 60) ++
      if size % 60 = 0 then [] else ':' :: Numeral.field 2 (size % 60)))

/-- `str` of a datetime. -/
def Stamp.str (s : Stamp) : Text :=
  s.wall.day.isoformat ++ ' ' :: (s.wall.clock ++ s.offset.elim [] offsetText)

/-- A finite float that is a double. -/
def IsDouble : Fl → Prop
  | .fin q => Arrow.FloatFormat.double.Holds q
  | .negZero => True
  | _ => False

/-- What the code takes from Python's floats and time zones. -/
structure Python where
  /-- `repr` of a finite float -/
  repr : Fl → Text
  repr_numeral : ∀ x, IsDouble x → ∃ (negative : Bool) (whole frac power : Text),
    repr x = Numeral.minus negative ++ (whole ++ frac ++ power) ∧
      Ansi.Unsigned whole frac power
  /-- Whether the aware datetimes of a column share one `tzinfo` (`zoneinfo`), or have one for each
  offset (`pytz`). -/
  sharedZone : Bool

/-- `_sql_string` -/
def sqlString (text : Text) : Text := '\'' :: (Doubled.double '\'' text ++ ['\''])

/-- `_sql_ident` -/
def sqlIdent (name : Text) : Text := '"' :: (Doubled.double '"' name ++ ['"'])

/-- `bytes.hex` -/
def hex (bs : List (Fin 256)) : Text :=
  bs.flatMap fun b => [Nat.digitChar (b.val / 16), Nat.digitChar (b.val % 16)]

def castDouble (text : Text) : Text :=
  ['C', 'A', 'S', 'T', '('] ++ sqlString text ++
    [' ', 'A', 'S', ' ', 'D', 'O', 'U', 'B', 'L', 'E', ')']

/-- `_sql_value` -/
def sqlValue (py : Python) : PyValue → Text
  | .none => ['N', 'U', 'L', 'L']
  | .bool b => if b then ['t', 'r', 'u', 'e'] else ['f', 'a', 'l', 's', 'e']
  | .int n => Numeral.int n
  | .float .nan => castDouble ['N', 'a', 'N']
  | .float .posInf => castDouble ['i', 'n', 'f']
  | .float .negInf => castDouble ['-', 'i', 'n', 'f']
  | .float x => py.repr x
  | .decimal d => sqlString d.str
  | .datetime s => Numeral.int s.micros
  | .date d => sqlString d.isoformat
  | .bytes bs => ['X', '\''] ++ hex bs ++ ['\'']
  | .str s => sqlString s

/-- `_sql_literal` -/
def sqlLiteral (py : Python) : PyValue → Text
  | .datetime s => sqlString s.str
  | .date d => sqlString d.isoformat
  | v => sqlValue py v

theorem signed_value (negative : Bool) (n : Numeral) :
    (Numeral.signed negative n).value = (if negative then -1 else 1) * n.value := by
  cases negative <;> simp [Numeral.signed, Numeral.value]

theorem readExponent_exp (n : ℤ) :
    Numeral.readExponent (if n = 0 then [] else 'E' :: plusInt n) = some n := by
  by_cases hn : n = 0
  · rw [if_pos hn, hn]
    rfl
  · have hread := Numeral.readExponent_int (Or.inr rfl : 'E' = 'e' ∨ 'E' = 'E')
      (decide (n < 0)) n.natAbs
    simp only [decide_eq_true_eq] at hread
    rw [if_neg hn, plusInt, hread, Option.some.injEq]
    split_ifs <;> omega

/-- Digits with a point and an exponent are read as the number they stand for. -/
theorem read_placed {digits : Text} (hne : digits ≠ []) (hdigits : ∀ c ∈ digits, c.isDigit = true)
    (dotplace e : ℤ) :
    Numeral.splitSign (placed digits dotplace e) = (1, placed digits dotplace e) ∧
      ∃ n : Numeral, Numeral.read (placed digits dotplace e) = some n ∧
        n.value = Numeral.number digits * 10 ^ (dotplace - digits.length + e) := by
  unfold placed
  have hexp := readExponent_exp e
  have hzeros : ∀ n : ℕ, ∀ c ∈ List.replicate n '0', c.isDigit = true := by
    intro n c hc
    rw [eq_of_mem_replicate hc]
    decide
  have hrest : ∀ c ∈ (if e = 0 then [] else 'E' :: plusInt e).head?,
      c.isDigit = false ∧ c ≠ '.' := by
    split_ifs
    · simp
    · rintro c ⟨rfl⟩
      decide
  by_cases hlow : dotplace ≤ 0
  · have hfrac : ∀ c ∈ List.replicate (-dotplace).toNat '0' ++ digits, c.isDigit = true := by
      intro c hc
      exact (mem_append.mp hc).elim (hzeros _ c) (hdigits c)
    have hread := @Numeral.read_fraction ['0'] _ _ e (by decide) (by decide) hfrac
      (fun c hc => (hrest c hc).1) hexp
    rw [if_pos hlow, if_pos hlow, @List.cons_append _ '.']
    refine ⟨Numeral.splitSign_digits (by decide) (by decide) _, _, hread, ?_⟩
    have hnumber : Numeral.number (['0'] ++ (List.replicate (-dotplace).toNat '0' ++ digits)) =
        Numeral.number digits := by
      rw [← append_assoc, ← replicate_one, replicate_append_replicate,
        Numeral.number_zeros]
    rw [Numeral.value, hnumber]
    congr 2
    simp only [length_append, length_replicate]
    push_cast
    omega
  · by_cases hhigh : (digits.length : ℤ) ≤ dotplace
    · have hwhole : ∀ c ∈ digits ++ List.replicate (dotplace - digits.length).toNat '0',
          c.isDigit = true := by
        intro c hc
        exact (mem_append.mp hc).elim (hdigits c) (hzeros _ c)
      have hread := Numeral.read_natural (by simp [hne]) hwhole hrest hexp
      rw [if_neg hlow, if_neg hlow, if_pos hhigh, if_pos hhigh]
      refine ⟨Numeral.splitSign_digits (by simp [hne]) hwhole _, _, hread, ?_⟩
      have hpow : (10 : ℚ) ^ (dotplace - digits.length + e) =
          10 ^ (dotplace - digits.length).toNat * 10 ^ e := by
        rw [← zpow_natCast, ← zpow_add₀ (by decide), Int.toNat_of_nonneg (by omega)]
      rw [Numeral.value, Numeral.number_shift, hpow, neg_neg]
      push_cast
      ring
    · have hsplit := take_append_drop dotplace.toNat digits
      have htake : digits.take dotplace.toNat ≠ [] := by
        rw [ne_eq, take_eq_nil_iff]
        push Not
        exact ⟨by omega, hne⟩
      have hwhole : ∀ c ∈ digits.take dotplace.toNat, c.isDigit = true :=
        fun c hc => hdigits c (mem_of_mem_take hc)
      have hread := @Numeral.read_fraction _ (digits.drop dotplace.toNat) _ e htake hwhole
        (fun c hc => hdigits c (mem_of_mem_drop hc)) (fun c hc => (hrest c hc).1) hexp
      rw [if_neg hlow, if_neg hlow, if_neg hhigh, if_neg hhigh, @List.cons_append _ '.']
      refine ⟨Numeral.splitSign_digits htake hwhole _, _, hread, ?_⟩
      rw [Numeral.value, hsplit]
      congr 2
      dsimp only
      rw [length_drop]
      omega

theorem PyDecimal.read_str (d : PyDecimal) :
    ∃ n, Numeral.read d.str = some n ∧ n.value = d.value := by
  obtain ⟨hsign, n, hread, hvalue⟩ := read_placed (Numeral.natural_ne_nil d.coefficient)
    (Numeral.natural_digit d.coefficient)
    (if d.exponent ≤ 0 ∧ -6 < d.exponent + (Numeral.natural d.coefficient).length then
      d.exponent + (Numeral.natural d.coefficient).length else 1)
    (d.exponent + (Numeral.natural d.coefficient).length -
      if d.exponent ≤ 0 ∧ -6 < d.exponent + (Numeral.natural d.coefficient).length then
        d.exponent + (Numeral.natural d.coefficient).length else 1)
  refine ⟨_, Numeral.read_signed d.negative hsign hread, ?_⟩
  rw [signed_value, hvalue, Numeral.number_natural, PyDecimal.value]
  congr 3
  omega

/-- What follows a mark at the front of a text. -/
def skip (mark : Char) : Text → Option Text
  | [] => none
  | c :: rest => if c = mark then some rest else none

/-- `YYYY-MM-DD`: the number of the day, and what follows. -/
def readDay (text : Text) : Option (ℤ × Text) := do
  let (year, rest) ← Numeral.readField 4 text
  let (month, rest) ← (skip '-' rest).bind (Numeral.readField 2)
  let (day, rest) ← (skip '-' rest).bind (Numeral.readField 2)
  if 1 ≤ month ∧ month ≤ 12 ∧ 1 ≤ day ∧
      day ≤ Calendar.monthLength (gregorian.leap year) month then
    some (gregorian.dayNumber ⟨year, month, day⟩, rest)
  else none

/-- A fraction of six digits where there is a point. -/
def readMicro : Text → Option (ℕ × Text)
  | '.' :: rest => Numeral.readField 6 rest
  | rest => some (0, rest)

/-- `HH:MM:SS[.ffffff]`: the microseconds since midnight, and what follows. -/
def readClock (text : Text) : Option (ℕ × Text) := do
  let (hour, rest) ← Numeral.readField 2 text
  let (minute, rest) ← (skip ':' rest).bind (Numeral.readField 2)
  let (second, rest) ← (skip ':' rest).bind (Numeral.readField 2)
  let (micro, rest) ← readMicro rest
  if hour < 24 ∧ minute < 60 ∧ second < 60 then
    some (((hour * 60 + minute) * 60 + second) * 10 ^ 6 + micro, rest)
  else none

/-- `HH:MM[:SS]`, in seconds. -/
def readSpan (text : Text) : Option ℕ := do
  let (hour, rest) ← Numeral.readField 2 text
  let (minute, rest) ← (skip ':' rest).bind (Numeral.readField 2)
  match rest with
  | [] => some ((hour * 60 + minute) * 60)
  | ':' :: rest =>
    (Numeral.readField 2 rest).bind fun (second, rest) =>
      if rest = [] then some ((hour * 60 + minute) * 60 + second) else none
  | _ => none

/-- An offset from UTC in seconds; zero where there is none. -/
def readOffset : Text → Option ℤ
  | [] => some 0
  | '+' :: rest => (readSpan rest).map Int.ofNat
  | '-' :: rest => (readSpan rest).map fun seconds => -Int.ofNat seconds
  | _ => none

/-- A day, and a clock and an offset where they follow, in microseconds since the epoch. -/
def readMoment (text : Text) : Option ℤ := do
  let (day, rest) ← readDay text
  if rest = [] then some (day * 86400 * 10 ^ 6)
  else do
    let (clock, rest) ← (skip ' ' rest).bind readClock
    let offset ← readOffset rest
    some (day * 86400 * 10 ^ 6 + clock - offset * 10 ^ 6)

theorem readDay_isoformat (d : PyDate) (rest : Text) :
    readDay (d.isoformat ++ rest) = some (gregorian.dayNumber d.date, rest) := by
  have hyear := d.year_pos
  have hmost := d.year_le
  obtain ⟨hpos, hle, hday, hlast⟩ := d.valid
  have hlength := Calendar.monthLength_le (gregorian.leap d.date.year) d.date.month
  have hcast : (d.date.year.toNat : ℤ) = d.date.year := Int.toNat_of_nonneg (by omega)
  have hread : ∀ {n : ℕ} (rest : Text), n < 10 ^ 2 →
      Numeral.readField 2 (Numeral.field 2 n ++ rest) = some (n, rest) :=
    fun rest hn => Numeral.readField_field hn rest
  have hfirst : Numeral.readField 4 (Numeral.field 4 d.date.year.toNat ++ ('-' ::
      (Numeral.field 2 d.date.month ++ '-' :: (Numeral.field 2 d.date.day ++ rest)))) =
      some (d.date.year.toNat, '-' ::
        (Numeral.field 2 d.date.month ++ '-' :: (Numeral.field 2 d.date.day ++ rest))) :=
    Numeral.readField_field (by omega) _
  simp only [PyDate.isoformat, append_assoc, cons_append, readDay, hfirst]
  simp [skip, hread _ (by omega : d.date.month < 10 ^ 2), hread _ (by omega : d.date.day < 10 ^ 2),
    hcast, hpos, hle, hday, hlast]

theorem readClock_clock (w : Wall) {rest : Text} (hrest : ∀ c ∈ rest.head?, c ≠ '.') :
    readClock (w.clock ++ rest) =
      some (((w.hour * 60 + w.minute) * 60 + w.second) * 10 ^ 6 + w.micro, rest) := by
  have hhour := w.hour_lt
  have hminute := w.minute_lt
  have hsecond := w.second_lt
  have hread : ∀ {n : ℕ} (rest : Text), n < 10 ^ 2 →
      Numeral.readField 2 (Numeral.field 2 n ++ rest) = some (n, rest) :=
    fun rest hn => Numeral.readField_field hn rest
  have hmicro : readMicro ((if w.micro = 0 then [] else '.' :: Numeral.field 6 w.micro) ++ rest) =
      some (w.micro, rest) := by
    split_ifs with hzero
    · rw [nil_append, hzero]
      unfold readMicro
      split
      · exact absurd rfl (hrest '.' rfl)
      · rfl
    · exact Numeral.readField_field w.micro_lt rest
  simp only [Wall.clock, append_assoc, cons_append, readClock]
  rw [hread _ (by omega : w.hour < 10 ^ 2)]
  simp [skip, hread _ (by omega : w.minute < 10 ^ 2), hread _ (by omega : w.second < 10 ^ 2),
    hmicro,
    hhour, hminute, hsecond]

theorem readSpan_text {size : ℕ} (hsize : size < 86400) :
    readSpan (Numeral.field 2 (size / 3600) ++ ':' :: (Numeral.field 2 (size / 60 % 60) ++
      if size % 60 = 0 then [] else ':' :: Numeral.field 2 (size % 60))) = some size := by
  have hread : ∀ {n : ℕ} (rest : Text), n < 10 ^ 2 →
      Numeral.readField 2 (Numeral.field 2 n ++ rest) = some (n, rest) :=
    fun rest hn => Numeral.readField_field hn rest
  have hlast := hread [] (by omega : size % 60 < 10 ^ 2)
  rw [append_nil] at hlast
  rw [readSpan, hread _ (by omega : size / 3600 < 10 ^ 2)]
  by_cases hzero : size % 60 = 0
  · simp only [hzero, if_true, skip, Option.bind_eq_bind, Option.bind_some,
      hread _ (by omega : size / 60 % 60 < 10 ^ 2), Option.some.injEq]
    omega
  · simp only [hzero, if_false, if_true, skip, Option.bind_eq_bind, Option.bind_some,
      hread _ (by omega : size / 60 % 60 < 10 ^ 2), hlast, Option.some.injEq]
    omega

theorem readOffset_text {seconds : ℤ} (hseconds : seconds.natAbs < 86400) :
    readOffset (offsetText seconds) = some seconds := by
  have hspan := readSpan_text hseconds
  by_cases hneg : seconds < 0
  · rw [offsetText, if_pos hneg, readOffset, hspan, Option.map_some, Option.some.injEq,
      Int.ofNat_eq_natCast]
    omega
  · rw [offsetText, if_neg hneg, readOffset, hspan, Option.map_some, Option.some.injEq,
      Int.ofNat_eq_natCast]
    omega

theorem readMoment_str (s : Stamp) : readMoment s.str = some s.micros := by
  have hoffset : readOffset (s.offset.elim [] offsetText) = some (s.offset.getD 0) := by
    cases hs : s.offset with
    | none => rfl
    | some seconds => exact readOffset_text (s.offset_lt seconds hs)
  have hpoint : ∀ c ∈ (s.offset.elim [] offsetText).head?, c ≠ '.' := by
    cases s.offset with
    | none => simp
    | some seconds =>
      rintro c ⟨rfl⟩
      split_ifs <;> decide
  have hne : ' ' :: (s.wall.clock ++ s.offset.elim [] offsetText) ≠ [] := by simp
  rw [Stamp.str, readMoment, readDay_isoformat]
  simp only [Option.bind_eq_bind, Option.bind_some, if_neg hne, skip, if_true,
    readClock_clock s.wall hpoint, hoffset, Option.some.injEq, Stamp.micros, Wall.micros]
  push_cast
  ring

theorem readMoment_isoformat (d : PyDate) :
    readMoment d.isoformat = some (gregorian.dayNumber d.date * 86400 * 10 ^ 6) := by
  have hread := readDay_isoformat d []
  rw [append_nil] at hread
  rw [readMoment, hread]
  rfl

end DeltaSwamp.Dynamic
