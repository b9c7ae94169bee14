import Mathlib.Order.WithBot
import Mathlib.Data.List.MinMax

/-!
# Bounds kept of a column's values

A least and a greatest number kept of some values, with the values that are no number (`⊤`, above
every number) left out and each bound passed through a rounding.
-/

namespace DeltaSwamp.Bounds

variable {N : Type}

def number : WithTop N → Option N := WithTop.recTopCoe none some

@[simp] theorem number_top : number (⊤ : WithTop N) = none := rfl

@[simp] theorem number_coe (n : N) : number (n : WithTop N) = some n := rfl

theorem number_eq_some {v : WithTop N} {n : N} : number v = some n ↔ v = n := by
  induction v with
  | top => simp
  | coe m => simp [eq_comm]

def numbers (values : List (WithTop N)) : List N := values.filterMap number

theorem mem_numbers {values : List (WithTop N)} {n : N} :
    n ∈ numbers values ↔ (n : WithTop N) ∈ values := by
  rw [numbers, List.mem_filterMap]
  constructor
  · rintro ⟨v, hv, hn⟩
    exact number_eq_some.mp hn ▸ hv
  · intro h
    exact ⟨n, h, number_coe n⟩

section
variable [LinearOrder N] (round : N → N)

def lower (values : List (WithTop N)) : Option N := (numbers values).min?.map round

def upper (values : List (WithTop N)) : Option N := (numbers values).max?.map round

/-- Each bound that is kept bounds every value, NaN among them. -/
def Bounded (values : List (WithTop N)) : Prop :=
  ∀ v ∈ values, (∀ b, lower round values = some b → (b : WithTop N) ≤ v) ∧
    ∀ b, upper round values = some b → v ≤ b

end

/-- No value that is no number stands beside a number, and every number is kept as it is. -/
structure Kept (round : N → N) (values : List (WithTop N)) : Prop where
  alone : ⊤ ∈ values → ∀ n : N, (n : WithTop N) ∉ values
  exact : ∀ n : N, (n : WithTop N) ∈ values → round n = n

section
variable {round : N → N} {values : List (WithTop N)}

theorem Kept.mono {file : List (WithTop N)} (h : Kept round values)
    (hfile : ∀ v ∈ file, v ∈ values) : Kept round file where
  alone htop n hn := h.alone (hfile _ htop) n (hfile _ hn)
  exact n hn := h.exact n (hfile _ hn)

variable [LinearOrder N]

theorem lower_le {n b : N} (hn : (n : WithTop N) ∈ values)
    (hround : ∀ m : N, (m : WithTop N) ∈ values → round m = m)
    (hb : lower round values = some b) : b ≤ n := by
  obtain ⟨m, hm, rfl⟩ := Option.map_eq_some_iff.mp hb
  obtain ⟨hmem, hle⟩ := List.min?_eq_some_iff.mp hm
  rw [hround m (mem_numbers.mp hmem)]
  exact hle n (mem_numbers.mpr hn)

theorem le_upper {n b : N} (hn : (n : WithTop N) ∈ values)
    (hround : ∀ m : N, (m : WithTop N) ∈ values → round m = m)
    (hb : upper round values = some b) : n ≤ b := by
  obtain ⟨m, hm, rfl⟩ := Option.map_eq_some_iff.mp hb
  obtain ⟨hmem, hle⟩ := List.max?_eq_some_iff.mp hm
  rw [hround m (mem_numbers.mp hmem)]
  exact hle n (mem_numbers.mpr hn)

theorem upper_isSome (round : N → N) {n : N} (hn : (n : WithTop N) ∈ values) :
    ∃ b, upper round values = some b := by
  cases hmax : (numbers values).max? with
  | none =>
    rw [List.max?_eq_none_iff] at hmax
    have hmem := mem_numbers.mpr hn
    rw [hmax] at hmem
    cases hmem
  | some m => exact ⟨round m, by rw [upper, hmax]; rfl⟩

theorem Kept.bounded (h : Kept round values) : Bounded round values := by
  intro v hv
  induction v with
  | top =>
    refine ⟨fun b _ => le_top, fun b hb => ?_⟩
    obtain ⟨m, hm, -⟩ := Option.map_eq_some_iff.mp hb
    exact absurd (mem_numbers.mp (List.max?_mem hm)) (h.alone hv m)
  | coe n =>
    exact ⟨fun b hb => WithTop.coe_le_coe.mpr (lower_le hv h.exact hb),
      fun b hb => WithTop.coe_le_coe.mpr (le_upper hv h.exact hb)⟩

theorem Bounded.alone (h : Bounded round values) (htop : ⊤ ∈ values) (n : N) :
    (n : WithTop N) ∉ values := by
  intro hn
  obtain ⟨b, hb⟩ := upper_isSome round hn
  exact WithTop.not_top_le_coe b ((h ⊤ htop).2 b hb)

theorem Bounded.round_eq {n : N} (h : Bounded round [(n : WithTop N)]) : round n = n := by
  obtain ⟨hlower, hupper⟩ := h n List.mem_cons_self
  exact le_antisymm (WithTop.coe_le_coe.mp (hlower (round n) rfl))
    (WithTop.coe_le_coe.mp (hupper (round n) rfl))

/-- The bounds of every file holding some of the values hold just if the values are kept. -/
theorem bounded_iff_kept :
    (∀ file : List (WithTop N), (∀ v ∈ file, v ∈ values) → Bounded round file) ↔
      Kept round values := by
  constructor
  · intro h
    constructor
    · exact (h values fun _ hv => hv).alone
    · intro n hn
      apply Bounded.round_eq
      apply h
      simp [hn]
  · intro h file hfile
    exact (h.mono hfile).bounded

end

end DeltaSwamp.Bounds
