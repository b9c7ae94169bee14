import DeltaSwamp.Ansi.Condition
import DeltaSwamp.Dynamic.Rendered

/-!
# Partition values against literals

What a partition value is in a column of the table's type, how the engine compares a
column with a literal, and that the literal a value is rendered as is that value.
-/

namespace DeltaSwamp.Dynamic

open Predicate (Prim Value Fl dayNanos)
open Rebase (gregorian)

/-- The value a Python value is in a column of a type. -/
def PyValue.value (type : Prim) : PyValue → Option Value
  | .none => Option.none
  | .bool b => some (.bool b)
  | .int n => some (if type.isFloating then .float (.fin n) else .num n)
  | .float x => some (.float x)
  | .decimal d => some (.num d.value)
  | .str s => some (.text s)
  | .date d => some (.time (gregorian.dayNumber d.date * dayNanos))
  | .datetime s => some (.time (s.micros * 1000))
  | .bytes bs => some (.bytes bs)

/-- The Python values of data that may be written into a column of a type. -/
def PyValue.Suits : Prim → PyValue → Prop
  | _, .none => True
  | .boolean, .bool _ => True
  | .int signed bits, .int n => Value.inRange signed bits n = true
  | .float _, .int n => n.natAbs < 2 ^ 53
  | .float _, .float x => IsDouble x ∨ x = .nan ∨ x = .posInf ∨ x = .negInf
  | .decimal bits precision scale, .int n =>
    Value.hasType (.decimal bits precision scale) (.num n) = true
  | .decimal bits precision scale, .decimal d =>
    Value.hasType (.decimal bits precision scale) (.num d.value) = true
  | .text _, .str _ => True
  | .binary _, .bytes _ => True
  | .date32, .date _ => True
  | .date64, .date _ => True
  | .timestamp _ Option.none, .date _ => True
  | .timestamp unit tz, .datetime s =>
    Value.hasType (.timestamp unit tz) (.time (s.micros * 1000)) = true
  | _, _ => False

/-- What DataFusion makes of the literals it compares a column with. -/
structure Engine (py : Python) where
  /-- A quoted literal, cast to the type. -/
  cast : Prim → Text → Option Value
  /-- A numeral, next to a column of the type. -/
  number : Prim → Text → Option Value
  cast_text : ∀ kind text, cast (.text kind) text = some (.text text)
  cast_decimal : ∀ bits precision scale text n, Numeral.read text = some n →
    Value.hasType (.decimal bits precision scale) (.num n.value) = true →
      cast (.decimal bits precision scale) text = some (.num n.value)
  cast_date : ∀ type text day, type.isDate = true → readDay text = some (day, []) →
    cast type text = some (.time (day * dayNanos))
  cast_moment : ∀ unit tz text micros, readMoment text = some micros →
    Value.hasType (.timestamp unit tz) (.time (micros * 1000)) = true →
      cast (.timestamp unit tz) text = some (.time (micros * 1000))
  cast_nan : cast (.float 64) ['N', 'a', 'N'] = some (.float .nan)
  cast_inf : cast (.float 64) ['i', 'n', 'f'] = some (.float .posInf)
  cast_negInf : cast (.float 64) ['-', 'i', 'n', 'f'] = some (.float .negInf)
  number_whole : ∀ type (n : ℤ), type.isInteger = true ∨ type.isDecimal = true →
    Value.hasType type (.num n) = true → number type (Numeral.int n) = some (.num n)
  number_float : ∀ bits (n : ℤ), n.natAbs < 2 ^ 53 →
    number (.float bits) (Numeral.int n) = some (.float (.fin n))
  number_repr : ∀ bits x, IsDouble x → number (.float bits) (py.repr x) = some (.float x)

def hexValue (c : Char) : Option ℕ :=
  (['0', '1', '2', '3', '4', '5', '6', '7', '8', '9', 'a', 'b', 'c', 'd', 'e', 'f'].findIdx?
    (· = c.toLower))

/-- Bytes of two hexadecimal digits each. -/
def readBytes : Text → Option (List (Fin 256))
  | [] => some []
  | [_] => none
  | c :: d :: rest => do
    let high ← hexValue c
    let low ← hexValue d
    let bytes ← readBytes rest
    some (Fin.ofNat 256 (16 * high + low) :: bytes)

section
variable {py : Python} (engine : Engine py)

/-- The value of a literal compared with a column of a type. -/
def Engine.meaning (type : Prim) : Ansi.Literal → Option Value
  | .str text => engine.cast type text
  | .hex text => (readBytes (text.drop 2).dropLast).map .bytes
  | .number negative text => engine.number type (Numeral.minus negative ++ text)
  | .bool b => some (.bool b)
  | .cast text target =>
    if target.map Char.toLower = ['d', 'o', 'u', 'b', 'l', 'e'] then engine.cast (.float 64) text
    else none

/-- Whether two values are one, floats by their total order. -/
def exact : Value → Value → Bool
  | .float x, .float y => x.totalOrder y = .eq
  | v, w => v = w

/-- `column = literal` -/
def Engine.compare (types : Text → Prim) (column : Text) (v : Value) (literal : Ansi.Literal) :
    Truth :=
  (engine.meaning (types column) literal).map (exact v)

end

theorem totalKey_injective : Function.Injective Fl.totalKey := by
  intro x y h
  cases x <;> cases y <;> simp_all [Fl.totalKey]

theorem exact_iff {v w : Value} : exact v w = true ↔ v = w := by
  cases v with
  | float x =>
    cases w with
    | float y => simp [exact, Fl.totalOrder, totalKey_injective.eq_iff]
    | _ => simp [exact]
  | _ => cases w <;> simp [exact]

theorem hexValue_digit : ∀ n < 16, hexValue (Nat.digitChar n) = some n := by decide

theorem hexDigit_digit : ∀ n < 16, Ansi.isHexDigit (Nat.digitChar n) = true := by decide

theorem readBytes_hex (bs : List (Fin 256)) : readBytes (hex bs) = some bs := by
  induction bs with
  | nil => rfl
  | cons b bs ih =>
    have hhigh := hexValue_digit (b.val / 16) (by omega)
    have hlow := hexValue_digit (b.val % 16) (by omega)
    have hbyte : Fin.ofNat 256 (16 * (b.val / 16) + b.val % 16) = b := by
      apply Fin.ext
      simp only [Fin.val_ofNat]
      omega
    change readBytes (Nat.digitChar (b.val / 16) :: Nat.digitChar (b.val % 16) :: hex bs) = _
    rw [readBytes, hhigh, hlow, ih]
    simp only [Option.bind_eq_bind, Option.bind_some, hbyte]

theorem hex_digit (bs : List (Fin 256)) : ∀ c ∈ hex bs, Ansi.isHexDigit c = true := by
  intro c hc
  obtain ⟨b, -, hb⟩ := List.mem_flatMap.mp hc
  simp only [List.mem_cons, List.not_mem_nil, or_false] at hb
  obtain rfl | rfl := hb
  · exact hexDigit_digit _ (by omega)
  · exact hexDigit_digit _ (by omega)

variable {chars : Ansi.Alphabet}

variable (chars) in
/-- A text written as tokens that are read as a literal. -/
def IsLiteral (text : Text) (literal : Ansi.Literal) : Prop :=
  ∃ tokens, Ansi.Written chars text tokens ∧
    ∀ rest, Ansi.readLiteral (tokens ++ rest) = some (literal, rest)

theorem isLiteral_string (text : Text) : IsLiteral chars (sqlString text) (.str text) :=
  ⟨_, .str text, fun _ => rfl⟩

theorem isLiteral_hex (bs : List (Fin 256)) :
    IsLiteral chars (['X', '\''] ++ hex bs ++ ['\'']) (.hex ('X' :: '\'' :: (hex bs ++ ['\'']))) :=
  ⟨_, .hex (hex_digit bs), fun _ => rfl⟩

theorem isLiteral_numeral {whole frac power : Text} (h : Ansi.Unsigned whole frac power)
    (negative : Bool) :
    IsLiteral chars (Numeral.minus negative ++ (whole ++ frac ++ power))
      (.number negative (whole ++ frac ++ power)) := by
  cases negative with
  | false => exact ⟨_, .number h, fun _ => rfl⟩
  | true => exact ⟨_, .mark (by decide) (by decide) (.number h), fun _ => rfl⟩

theorem natural_unsigned (n : ℕ) : Ansi.Unsigned (Numeral.natural n) [] [] where
  whole_ne := Numeral.natural_ne_nil n
  whole_digit := Numeral.natural_digit n
  frac_form := Or.inl rfl
  power_form := Or.inl rfl

theorem isLiteral_int (n : ℤ) :
    IsLiteral chars (Numeral.int n) (.number (n < 0) (Numeral.natural n.natAbs)) := by
  have h := @isLiteral_numeral chars _ _ _ (natural_unsigned n.natAbs) (decide (n < 0))
  rwa [List.append_nil, List.append_nil] at h

theorem isLiteral_bool (b : Bool) :
    IsLiteral chars (if b then ['t', 'r', 'u', 'e'] else ['f', 'a', 'l', 's', 'e']) (.bool b) := by
  cases b with
  | true => exact ⟨_, .word (by decide) (by decide), fun _ => rfl⟩
  | false => exact ⟨_, .word (by decide) (by decide), fun _ => rfl⟩

theorem isLiteral_castDouble (text : Text) :
    IsLiteral chars (castDouble text) (.cast text ['D', 'O', 'U', 'B', 'L', 'E']) := by
  have hinner : Ansi.Written chars
      (sqlString text ++ ' ' :: (['A', 'S'] ++ ' ' :: ['D', 'O', 'U', 'B', 'L', 'E']))
      [.str text, .word ['A', 'S'], .word ['D', 'O', 'U', 'B', 'L', 'E']] :=
    .blank (.str text) (.blank (.word (by decide) (by decide)) (.word (by decide) (by decide)))
  have hcall := @Ansi.Written.call chars _ _ 'C' ['A', 'S', 'T'] (by decide) (by decide) hinner
  have htext : castDouble text = 'C' :: (['A', 'S', 'T'] ++ '(' ::
      ((sqlString text ++ ' ' :: (['A', 'S'] ++ ' ' :: ['D', 'O', 'U', 'B', 'L', 'E'])) ++
        [')'])) := by
    simp [castDouble]
  rw [htext]
  exact ⟨_, hcall, fun _ => rfl⟩

section
variable {py : Python} (engine : Engine py) {type : Prim}

theorem meaning_int {n : ℤ} (hsuits : (PyValue.int n).Suits type) :
    engine.number type (Numeral.int n) = (PyValue.int n).value type := by
  cases type with
  | float bits => exact engine.number_float bits n hsuits
  | int signed bits =>
    have hrange : Value.inRange signed bits n = true := hsuits
    exact engine.number_whole _ _ (Or.inl rfl) (by simpa [Value.hasType] using hrange)
  | decimal bits precision scale => exact engine.number_whole _ _ (Or.inr rfl) hsuits
  | _ => exact hsuits.elim

theorem meaning_float {x : Fl} (hsuits : (PyValue.float x).Suits type) :
    ∃ literal, IsLiteral chars (sqlLiteral py (.float x)) literal ∧
      engine.meaning type literal = some (.float x) := by
  cases type with
  | float bits =>
    have hfinite : IsDouble x → py.repr x = sqlLiteral py (.float x) →
        ∃ literal, IsLiteral chars (sqlLiteral py (.float x)) literal ∧
          engine.meaning (.float bits) literal = some (.float x) := by
      intro hx hrepr
      obtain ⟨negative, whole, frac, power, htext, hunsigned⟩ := py.repr_numeral x hx
      have hmeaning := engine.number_repr bits x hx
      rw [htext] at hmeaning
      refine ⟨.number negative (whole ++ frac ++ power), ?_, hmeaning⟩
      rw [← hrepr, htext]
      exact isLiteral_numeral hunsigned negative
    cases x with
    | nan => exact ⟨_, isLiteral_castDouble _, engine.cast_nan⟩
    | posInf => exact ⟨_, isLiteral_castDouble _, engine.cast_inf⟩
    | negInf => exact ⟨_, isLiteral_castDouble _, engine.cast_negInf⟩
    | negZero => exact hfinite trivial rfl
    | fin q => exact hfinite (hsuits.resolve_right (by simp)) rfl
  | _ => exact hsuits.elim

theorem meaning_date {d : PyDate} (hsuits : (PyValue.date d).Suits type) :
    engine.cast type d.isoformat = (PyValue.date d).value type := by
  have hread := readDay_isoformat d []
  rw [List.append_nil] at hread
  cases type with
  | date32 => exact engine.cast_date _ _ _ rfl hread
  | date64 => exact engine.cast_date _ _ _ rfl hread
  | timestamp unit tz =>
    cases tz with
    | some tz => exact hsuits.elim
    | none =>
      have hmicros : gregorian.dayNumber d.date * 86400 * 10 ^ 6 * 1000 =
          gregorian.dayNumber d.date * dayNanos := by
        simp only [dayNanos]
        push_cast
        ring
      have hmoment := engine.cast_moment unit none _ _ (readMoment_isoformat d) (by
        simp only [Value.hasType, decide_eq_true_eq]
        cases unit <;> simp only [Predicate.TimeUnit.nanos] <;> omega)
      rw [hmicros] at hmoment
      exact hmoment
  | _ => exact hsuits.elim

/-- A value is rendered as a literal that is the value, next to a column it may be written into. -/
theorem sqlLiteral_meaning {v : PyValue} (hv : v ≠ .none) (hsuits : v.Suits type) :
    ∃ literal, IsLiteral chars (sqlLiteral py v) literal ∧
      engine.meaning type literal = v.value type := by
  cases v with
  | none => exact absurd rfl hv
  | bool b => exact ⟨_, isLiteral_bool b, rfl⟩
  | int n => exact ⟨_, isLiteral_int n, meaning_int engine hsuits⟩
  | float x => exact meaning_float engine hsuits
  | decimal d =>
    obtain ⟨n, hread, hvalue⟩ := d.read_str
    cases type with
    | decimal bits precision scale =>
      have hcast := engine.cast_decimal bits precision scale d.str n hread
        (by rw [hvalue]; exact hsuits)
      rw [hvalue] at hcast
      exact ⟨_, isLiteral_string d.str, hcast⟩
    | _ => exact hsuits.elim
  | str s =>
    cases type with
    | text kind => exact ⟨_, isLiteral_string s, engine.cast_text kind s⟩
    | _ => exact hsuits.elim
  | date d => exact ⟨_, isLiteral_string d.isoformat, meaning_date engine hsuits⟩
  | datetime s =>
    cases type with
    | timestamp unit tz =>
      exact ⟨_, isLiteral_string s.str, engine.cast_moment unit tz s.str s.micros (readMoment_str s)
        (by cases tz <;> exact hsuits)⟩
    | _ => exact hsuits.elim
  | bytes bs =>
    refine ⟨_, isLiteral_hex bs, ?_⟩
    have hinner : (('X' :: '\'' :: (hex bs ++ ['\''])).drop 2).dropLast = hex bs := by simp
    rw [Engine.meaning, hinner, readBytes_hex]
    rfl

end

end DeltaSwamp.Dynamic
