import Mathlib.Data.List.Lex
import Mathlib.Order.Bounds.Basic
import Mathlib.Order.Cover
import Mathlib.Order.Max

/-!
# Lists that start alike

The lists with a given prefix, in lexicographic order, and the least list above all of them.
-/

namespace DeltaSwamp.Cone

open List

section
variable {α : Type} [LinearOrder α]

theorem cons_le_cons {a b : α} {s t : List α} : a :: s ≤ b :: t ↔ a < b ∨ a = b ∧ s ≤ t := by
  rw [← not_lt, cons_lt_cons_iff, not_or, not_and, not_lt, le_iff_lt_or_eq, not_lt]
  constructor
  · rintro ⟨hlt | heq, h⟩
    · exact Or.inl hlt
    · exact Or.inr ⟨heq, h heq.symm⟩
  · rintro (hlt | ⟨heq, h⟩)
    · exact ⟨Or.inl hlt, fun heq => absurd heq hlt.ne'⟩
    · exact ⟨Or.inr heq, fun _ => h⟩

theorem nil_le (s : List α) : [] ≤ s := by
  rw [← not_lt]
  exact not_lt_nil s

theorem le_of_prefix {start s : List α} (h : start <+: s) : start ≤ s := by
  obtain ⟨after, rfl⟩ := h
  induction start with
  | nil => exact nil_le _
  | cons a rest ih => exact cons_le_cons.mpr (Or.inr ⟨rfl, ih⟩)

/-- What is above every list that starts with `start`. -/
def above (start : List α) : Set (List α) := {u | ∀ s, start <+: s → s < u}

theorem mem_above_nil {u : List α} : u ∉ above ([] : List α) := by
  intro h
  exact lt_irrefl u (h u List.nil_prefix)

theorem mem_above_cons {a : α} {rest u : List α} :
    u ∈ above (a :: rest) ↔ ∃ b tail, u = b :: tail ∧ (a < b ∨ a = b ∧ tail ∈ above rest) := by
  constructor
  · intro h
    cases u with
    | nil => exact absurd (h _ (prefix_refl _)) (not_lt_nil _)
    | cons b tail =>
      refine ⟨b, tail, rfl, ?_⟩
      cases cons_lt_cons_iff.mp (h _ (prefix_refl _)) with
      | inl hlt => exact Or.inl hlt
      | inr heq =>
        refine Or.inr ⟨heq.1, fun s hs => ?_⟩
        have hcons := h (a :: s) (cons_prefix_cons.mpr ⟨rfl, hs⟩)
        rw [cons_lt_cons_iff] at hcons
        exact (hcons.resolve_left fun hlt => hlt.ne heq.1).2
  · rintro ⟨b, tail, rfl, hb⟩ s hs
    obtain ⟨after, rfl⟩ := hs
    rw [cons_append, cons_lt_cons_iff]
    exact hb.imp_right fun h => ⟨h.1, h.2 _ (prefix_append rest after)⟩

end

section
variable {α : Type} [LinearOrder α] (next : α → Option α)

/-- The last letter that has a next one is replaced by it, and those after it are dropped. -/
def bound : List α → Option (List α)
  | [] => none
  | a :: rest =>
    match bound rest with
    | some u => some (a :: u)
    | none => (next a).map fun b => [b]

/-- `next` gives what follows a letter, and nothing for the greatest. -/
structure Nexts : Prop where
  covers : ∀ a b, next a = some b → a ⋖ b
  greatest : ∀ a, next a = none → IsTop a

variable {next}

/-- The bound is the least of what is above the cone; without one nothing is. -/
theorem bound_spec (h : Nexts next) (start : List α) :
    (∀ u, bound next start = some u → IsLeast (above start) u) ∧
      (bound next start = none → above start = ∅) := by
  induction start with
  | nil =>
    refine ⟨nofun, fun _ => ?_⟩
    exact Set.eq_empty_of_forall_notMem fun u => mem_above_nil
  | cons a rest ih =>
    unfold bound
    cases hrest : bound next rest with
    | some tail =>
      refine ⟨fun u hu => ?_, nofun⟩
      obtain ⟨hmem, hleast⟩ := ih.1 tail hrest
      cases hu
      refine ⟨mem_above_cons.mpr ⟨a, tail, rfl, Or.inr ⟨rfl, hmem⟩⟩, fun v hv => ?_⟩
      obtain ⟨b, after, rfl, hlt | ⟨rfl, hafter⟩⟩ := mem_above_cons.mp hv
      · exact (cons_lt_cons_iff.mpr (Or.inl hlt)).le
      · exact cons_le_cons.mpr (Or.inr ⟨rfl, hleast hafter⟩)
    | none =>
      have hempty := ih.2 hrest
      cases hnext : next a with
      | none =>
        refine ⟨nofun, fun _ => ?_⟩
        refine Set.eq_empty_of_forall_notMem fun u hu => ?_
        obtain ⟨b, after, -, hlt | ⟨-, hafter⟩⟩ := mem_above_cons.mp hu
        · exact absurd (h.greatest a hnext b) (not_le_of_gt hlt)
        · exact absurd hafter (hempty ▸ Set.notMem_empty after)
      | some b =>
        refine ⟨fun u hu => ?_, nofun⟩
        cases hu
        have hcover := h.covers a b hnext
        refine ⟨mem_above_cons.mpr ⟨b, [], rfl, Or.inl hcover.lt⟩, fun v hv => ?_⟩
        obtain ⟨c, after, rfl, hlt | ⟨-, hafter⟩⟩ := mem_above_cons.mp hv
        · cases (hcover.ge_of_gt hlt).lt_or_eq with
          | inl hbc => exact (cons_lt_cons_iff.mpr (Or.inl hbc)).le
          | inr heq => exact cons_le_cons.mpr (Or.inr ⟨heq, nil_le _⟩)
        · exact absurd hafter (hempty ▸ Set.notMem_empty after)

theorem bound_eq_none_iff (h : Nexts next) (start : List α) :
    bound next start = none ↔ above start = ∅ := by
  refine ⟨(bound_spec h start).2, fun hempty => ?_⟩
  cases hbound : bound next start with
  | none => rfl
  | some u =>
    have hmem := ((bound_spec h start).1 u hbound).1
    rw [hempty] at hmem
    exact absurd hmem (Set.notMem_empty u)

theorem bound_eq_some_iff (h : Nexts next) (start u : List α) :
    bound next start = some u ↔ IsLeast (above start) u := by
  refine ⟨(bound_spec h start).1 u, fun hleast => ?_⟩
  cases hbound : bound next start with
  | none =>
    have hmem := hleast.1
    rw [(bound_spec h start).2 hbound] at hmem
    exact absurd hmem (Set.notMem_empty u)
  | some v => rw [((bound_spec h start).1 v hbound).unique hleast]

theorem lt_of_bound (h : Nexts next) {start s u : List α} (hs : start <+: s)
    (hu : bound next start = some u) : s < u :=
  ((bound_spec h start).1 u hu).1 s hs

end

end DeltaSwamp.Cone
