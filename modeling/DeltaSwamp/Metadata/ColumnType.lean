import DeltaSwamp.Arrow.Cast
import DeltaSwamp.Metadata.Merge
import DeltaSwamp.Numeral

/-!
# The types widening is about

What values they hold, what text denotes which of them in the log, and the
order `_widening_allowed` decides. The order is transitive, and every value of
a type is one of each type above it.
-/

namespace DeltaSwamp.Metadata

open Arrow (Denoted FloatFormat Plain Raw denote)

/-- `_INTEGRAL`. -/
inductive Integral where
  | byte | short | integer | long
  deriving DecidableEq

namespace Integral

def name : Integral → String
  | byte => "byte"
  | short => "short"
  | integer => "integer"
  | long => "long"

def rank : Integral → Nat
  | byte => 0
  | short => 1
  | integer => 2
  | long => 3

def bits : Integral → Nat
  | byte => 8
  | short => 16
  | integer => 32
  | long => 64

def digits : Integral → Nat
  | byte | short | integer => 10
  | long => 20

end Integral

inductive ColumnType where
  | integral (i : Integral)
  | float
  | double
  | date
  | timestampNtz
  | decimal (precision scale : Nat)
  deriving DecidableEq

namespace ColumnType

def plain : ColumnType → Plain
  | integral i => .int true i.bits
  | float => .float .single
  | double => .float .double
  | date => .date32
  | timestampNtz => .timestamp .microsecond none
  | decimal precision scale => .decimal precision scale

/-- The days a date can be, counted from the epoch: 0001-01-01 to 9999-12-31. -/
def CalendarDay (n : Int) : Prop := -719162 ≤ n ∧ n ≤ 2932896

/-- `raw` is stored in a column of the type. -/
def Stores (t : ColumnType) (raw : Raw) : Prop :=
  t.plain.Holds raw ∧ ∀ n, t = date → raw = .int n → CalendarDay n

/-- What a value of the type denotes. -/
def Holds (t : ColumnType) (v : Denoted) : Prop := ∃ raw, t.Stores raw ∧ denote t.plain raw = v

def scale : ColumnType → Nat
  | decimal _ s => s
  | _ => 0

/-- The type can be changed to the other without a rewrite. -/
def Widens : ColumnType → ColumnType → Prop
  | integral i, integral j => i.rank < j.rank
  | integral i, double => i ≠ .long
  | integral i, decimal p s => p ≤ 38 ∧ s ≤ p ∧ i.digits ≤ p - s
  | float, double => True
  | date, timestampNtz => True
  | decimal p₀ s₀, decimal p s =>
    0 < p ∧ p ≤ 38 ∧ s ≤ p ∧ p₀ ≤ p ∧ s₀ ≤ s ∧ (p₀ : Int) - s₀ ≤ (p : Int) - s
  | _, _ => False

section
variable {a b c : ColumnType}

variable {i j : Integral}

theorem digits_mono (h : i.rank < j.rank) : i.digits ≤ j.digits := by
  cases i <;> cases j <;> simp_all [Integral.rank, Integral.digits]

theorem ne_long_of_rank (h : i.rank < j.rank) : i ≠ .long := by
  rintro rfl
  cases j <;> simp [Integral.rank] at h

theorem Widens.trans (h : a.Widens b) (h' : b.Widens c) : a.Widens c := by
  cases a with
  | integral i =>
    cases b with
    | integral j =>
      cases c with
      | integral k => exact h.trans h'
      | double => exact ne_long_of_rank h
      | decimal p s => exact ⟨h'.1, h'.2.1, (digits_mono h).trans h'.2.2⟩
      | float | date | timestampNtz => exact h'.elim
    | decimal p s =>
      cases c with
      | decimal p' s' =>
        obtain ⟨-, hle, hdigits⟩ := h
        obtain ⟨-, hp', hle', -, -, hleft⟩ := h'
        exact ⟨hp', hle', by omega⟩
      | integral | float | double | date | timestampNtz => exact h'.elim
    | double => exact h'.elim
    | float | date | timestampNtz => exact h.elim
  | decimal p s =>
    cases b with
    | decimal p' s' =>
      cases c with
      | decimal p'' s'' =>
        obtain ⟨-, -, -, hp, hs, hleft⟩ := h
        obtain ⟨hpos, hp'', hle, hp', hs', hleft'⟩ := h'
        exact ⟨hpos, hp'', hle, hp.trans hp', hs.trans hs', hleft.trans hleft'⟩
      | integral | float | double | date | timestampNtz => exact h'.elim
    | integral | float | double | date | timestampNtz => exact h.elim
  | float =>
    cases b with
    | double => exact h'.elim
    | integral | float | date | timestampNtz | decimal => exact h.elim
  | date =>
    cases b with
    | timestampNtz => exact h'.elim
    | integral | float | double | date | decimal => exact h.elim
  | double | timestampNtz => exact h.elim

theorem not_widens_float : ¬ a.Widens float := by cases a <;> exact id

theorem not_widens_double : ¬ double.Widens b := by cases b <;> exact id

variable {n : Int}

theorem double_holds (h : |n| < 2 ^ 53) : FloatFormat.double.Holds n :=
  ⟨n, 0, h, by decide, by decide, by simp⟩

theorem double_holds_of_single {x : ℚ} (h : FloatFormat.single.Holds x) :
    FloatFormat.double.Holds x := by
  obtain ⟨m, e, hm, hleast, hgreatest, rfl⟩ := h
  refine ⟨m, e, hm.trans ?_, ?_, ?_, rfl⟩
  · simp [FloatFormat.precision]
  · exact le_trans (by decide) hleast
  · exact hgreatest.trans (by decide)

theorem abs_lt_of_bits (hi : i ≠ .long) (hlow : -2 ^ (i.bits - 1) ≤ n)
    (hhigh : n < 2 ^ (i.bits - 1)) : |n| < 2 ^ 53 := by
  rw [abs_lt]
  cases i <;> simp_all [Integral.bits] <;> omega

theorem bits_mono (h : i.rank < j.rank) (hn : -2 ^ (i.bits - 1) ≤ n ∧ n < 2 ^ (i.bits - 1)) :
    -2 ^ (j.bits - 1) ≤ n ∧ n < 2 ^ (j.bits - 1) := by
  cases i <;> cases j <;> simp_all [Integral.rank, Integral.bits] <;> omega

theorem abs_lt_of_digits (hn : -2 ^ (i.bits - 1) ≤ n ∧ n < 2 ^ (i.bits - 1)) :
    |n| < 10 ^ i.digits := by
  rw [abs_lt]
  cases i <;> simp_all [Integral.bits, Integral.digits] <;> omega

theorem abs_mul_lt {d p s : Nat} (hn : |n| < 10 ^ d) (h : d + s ≤ p) : |n * 10 ^ s| < 10 ^ p := by
  rw [abs_mul, abs_of_pos (by positivity : (0 : Int) < 10 ^ s)]
  calc |n| * 10 ^ s < 10 ^ d * 10 ^ s := mul_lt_mul_of_pos_right hn (by positivity)
    _ = 10 ^ (d + s) := (pow_add _ _ _).symm
    _ ≤ 10 ^ p := pow_le_pow_right₀ (by norm_num) h

/-- A wider type holds every value of the narrower. -/
theorem Widens.holds (h : a.Widens b) {v : Denoted} (hv : a.Holds v) : b.Holds v := by
  obtain ⟨raw, ⟨hraw, hday⟩, rfl⟩ := hv
  cases a with
  | integral i =>
    cases raw with
    | int n =>
      cases b with
      | integral j => exact ⟨.int n, ⟨bits_mono h hraw, by simp⟩, rfl⟩
      | double =>
        have hn := abs_lt_of_bits h hraw.1 hraw.2
        exact ⟨.float (.fin n), ⟨double_holds hn, by simp⟩, rfl⟩
      | decimal p s =>
        obtain ⟨-, hle, hdigits⟩ := h
        refine ⟨.int (n * 10 ^ s), ⟨abs_mul_lt (abs_lt_of_digits hraw) (by omega), by simp⟩, ?_⟩
        simp [plain, denote]
      | float | date | timestampNtz => exact h.elim
    | bool | float | text | bytes => exact hraw.elim
  | float =>
    cases b with
    | double =>
      cases raw with
      | float x =>
        refine ⟨.float x, ⟨?_, by simp⟩, rfl⟩
        cases x with
        | fin x => exact double_holds_of_single hraw
        | nan | negInf | posInf | negZero => trivial
      | int | bool | text | bytes => exact hraw.elim
    | integral | float | date | timestampNtz | decimal => exact h.elim
  | date =>
    cases b with
    | timestampNtz =>
      cases raw with
      | int n =>
        have hcalendar : CalendarDay n := hday n rfl rfl
        refine ⟨.int (n * (86400 * 10 ^ 6)), ⟨?_, by simp⟩, ?_⟩
        · unfold CalendarDay at hcalendar
          constructor <;> omega
        · simp only [plain, denote, Arrow.TimeUnit.ns, Denoted.wallTime.injEq]
          ring
      | float | bool | text | bytes => exact hraw.elim
    | integral | float | double | date | decimal => exact h.elim
  | decimal p₀ s₀ =>
    cases b with
    | decimal p s =>
      cases raw with
      | int n =>
        obtain ⟨-, -, -, hp, hs, hleft⟩ := h
        refine ⟨.int (n * 10 ^ (s - s₀)), ⟨abs_mul_lt hraw (by omega), by simp⟩, ?_⟩
        obtain ⟨k, rfl⟩ := Nat.exists_eq_add_of_le hs
        simp only [plain, denote, Denoted.number.injEq]
        rw [Nat.add_sub_cancel_left]
        push_cast
        rw [zpow_add₀ (by norm_num), zpow_natCast, zpow_natCast]
        field_simp
      | float | bool | text | bytes => exact hraw.elim
    | integral | float | double | date | timestampNtz => exact h.elim
  | double | timestampNtz => exact h.elim

end

end ColumnType

/-- How the kernel reads the partition values in the log, as far as numbers go. -/
structure PartitionReader where
  parse : ColumnType → List Char → Option Denoted
  integral : ∀ i text v, parse (.integral i) text = some v ↔
    ∃ n, Numeral.readWhole text = some n ∧
      (-2 ^ (i.bits - 1) ≤ n ∧ n < 2 ^ (i.bits - 1)) ∧ v = .number n
  /-- with as many digits behind the point as the type's scale -/
  decimal : ∀ p s text v, parse (.decimal p s) text = some v ↔
    ∃ n, Numeral.read text = some n ∧ (n.scale = s ∧ |n.digits| < 10 ^ p) ∧ v = .number n.value
  /-- rounded to the nearest -/
  float : ∀ text n, Numeral.read text = some n →
    parse .float text = some (FloatFormat.single.nearest n.value)
  double : ∀ text n, Numeral.read text = some n →
    parse .double text = some (FloatFormat.double.nearest n.value)

section
variable {a b : ColumnType} (reader : PartitionReader) {text : List Char} {v : Denoted}

open ColumnType

theorem PartitionReader.parse_widens (h : a.Widens b) (hscale : b.scale = a.scale)
    (hdate : a ≠ .date) (hfloat : a ≠ .float) (hv : reader.parse a text = some v) :
    reader.parse b text = some v := by
  cases a with
  | integral i =>
    obtain ⟨n, hread, hn, rfl⟩ := (reader.integral i text v).mp hv
    cases b with
    | integral j => exact (reader.integral j text _).mpr ⟨n, hread, bits_mono h hn, rfl⟩
    | double =>
      rw [reader.double text ⟨n, 0⟩ (Numeral.read_whole hread), Numeral.value_whole,
        FloatFormat.nearest_of_holds (double_holds (abs_lt_of_bits h hn.1 hn.2))]
    | decimal p s =>
      obtain ⟨-, -, hdigits⟩ := h
      cases hscale
      have hlt := abs_mul_lt (s := 0) (p := p) (abs_lt_of_digits hn) (by omega)
      refine (reader.decimal p _ text _).mpr
        ⟨⟨n, 0⟩, Numeral.read_whole hread, ⟨rfl, ?_⟩, ?_⟩
      · simpa using hlt
      · rw [Numeral.value_whole]
    | float | date | timestampNtz => exact h.elim
  | decimal p₀ s₀ =>
    cases b with
    | decimal p s =>
      obtain ⟨n, hread, ⟨hs, hn⟩, rfl⟩ := (reader.decimal p₀ s₀ text v).mp hv
      obtain ⟨-, -, -, hp, -, -⟩ := h
      cases hscale
      have hlt : |n.digits| < 10 ^ p := hn.trans_le (pow_le_pow_right₀ (by norm_num) hp)
      exact (reader.decimal p _ text _).mpr ⟨n, hread, ⟨hs, hlt⟩, rfl⟩
    | integral | float | double | date | timestampNtz => exact h.elim
  | float => exact absurd rfl hfloat
  | date => exact absurd rfl hdate
  | double | timestampNtz => exact h.elim

theorem PartitionReader.tenth_reparsed : ∃ v, reader.parse .float "0.1".toList = some v ∧
    reader.parse .double "0.1".toList ≠ some v := by
  have hread : Numeral.read "0.1".toList = some ⟨1, 1⟩ := by decide
  refine ⟨_, reader.float _ _ hread, ?_⟩
  rw [reader.double _ _ hread]
  decide +kernel

end

end DeltaSwamp.Metadata
