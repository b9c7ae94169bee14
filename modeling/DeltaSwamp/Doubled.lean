import Mathlib.Data.List.Basic

/-!
# Text whose closing mark is doubled inside

A text between two marks in which the mark itself is written twice: writing it,
reading it up to the mark that closes it, and undoing the doubling.
-/

namespace DeltaSwamp.Doubled

open List

variable {α : Type} [DecidableEq α]

/-- Every mark of a text written twice. -/
def double (mark : α) (text : List α) : List α :=
  text.flatMap fun c => if c = mark then [c, c] else [c]

/-- Pairs of marks from the left, each read as one. -/
def undouble (mark : α) : List α → List α
  | [] => []
  | [c] => [c]
  | c :: d :: rest =>
    if c = mark ∧ d = mark then c :: undouble mark rest else c :: undouble mark (d :: rest)

/-- What stands before the first mark that is not doubled, and what follows that mark. -/
def close (mark : α) : List α → Option (List α × List α)
  | [] => none
  | [c] => if c = mark then some ([], []) else none
  | c :: d :: rest =>
    if c = mark then
      if d = mark then (close mark rest).map fun read => (c :: read.1, read.2)
      else some ([], d :: rest)
    else (close mark (d :: rest)).map fun read => (c :: read.1, read.2)

variable {mark : α}

theorem double_mark (text : List α) :
    double mark (mark :: text) = mark :: mark :: double mark text := by
  simp [double]

variable {c : α}

theorem double_other (hc : c ≠ mark) (text : List α) :
    double mark (c :: text) = c :: double mark text := by
  simp [double, hc]

theorem undouble_pair (text : List α) :
    undouble mark (mark :: mark :: text) = mark :: undouble mark text := by
  simp [undouble]

theorem undouble_other (hc : c ≠ mark) (text : List α) :
    undouble mark (c :: text) = c :: undouble mark text := by
  cases text with
  | nil => rfl
  | cons d rest => simp [undouble, hc]

variable {rest : List α}

theorem close_mark (hrest : rest.head? ≠ some mark) :
    close mark (mark :: rest) = some ([], rest) := by
  cases rest with
  | nil => simp [close]
  | cons d more =>
    have hd : d ≠ mark := by simpa using hrest
    simp [close, hd]

theorem close_pair (rest : List α) :
    close mark (mark :: mark :: rest) =
      (close mark rest).map fun read => (mark :: read.1, read.2) := by
  simp [close]

theorem close_other (hc : c ≠ mark) (rest : List α) :
    close mark (c :: rest) = (close mark rest).map fun read => (c :: read.1, read.2) := by
  cases rest with
  | nil => simp [close, hc]
  | cons d more => simp [close, hc]

/-- A doubled text is read back up to its closing mark, where no further mark follows that one. -/
theorem close_double (text : List α) (hrest : rest.head? ≠ some mark) :
    close mark (double mark text ++ mark :: rest) = some (text, rest) := by
  induction text with
  | nil => exact close_mark hrest
  | cons c text ih =>
    by_cases hc : c = mark
    · subst hc
      rw [double_mark, cons_append, cons_append, close_pair, ih]
      rfl
    · rw [double_other hc, cons_append, close_other hc, ih]
      rfl

variable {text : List α}

theorem close_text {inner : List α} (h : close mark text = some (inner, rest)) :
    text = double mark inner ++ mark :: rest := by
  induction text using close.induct mark generalizing inner with
  | case1 => cases h
  | case2 =>
    simp only [close, if_true, Option.some.injEq, Prod.mk.injEq] at h
    obtain ⟨rfl, rfl⟩ := h
    rfl
  | case3 c hc => simp [close, hc] at h
  | case4 more ih =>
    rw [close_pair, Option.map_eq_some_iff] at h
    obtain ⟨⟨inner', rest'⟩, hread, heq⟩ := h
    obtain ⟨rfl, rfl⟩ := Prod.mk.inj heq
    rw [double_mark, ih hread]
    rfl
  | case5 d more hd =>
    simp only [close, if_true, if_neg hd, Option.some.injEq, Prod.mk.injEq] at h
    obtain ⟨rfl, rfl⟩ := h
    rfl
  | case6 c d more hc ih =>
    rw [close_other hc, Option.map_eq_some_iff] at h
    obtain ⟨⟨inner', rest'⟩, hread, heq⟩ := h
    obtain ⟨rfl, rfl⟩ := Prod.mk.inj heq
    rw [double_other hc, ih hread]
    rfl

theorem double_plain (h : mark ∉ text) : double mark text = text := by
  induction text with
  | nil => rfl
  | cons c text ih =>
    rw [mem_cons, not_or] at h
    rw [double_other (Ne.symm h.1), ih h.2]

/-- A text that begins as a run of marks does before its own doubling is a run of marks. -/
theorem all_marks {k : Nat} (h : text <+: List.replicate (k + 1) mark ++ double mark text) :
    ∀ c ∈ text, c = mark := by
  induction text generalizing k with
  | nil => simp
  | cons d text ih =>
    rw [replicate_succ, cons_append, cons_prefix_cons] at h
    obtain ⟨rfl, h⟩ := h
    have hmore : List.replicate k d ++ double d (d :: text) =
        List.replicate (k + 1 + 1) d ++ double d text := by
      rw [double_mark, replicate_succ', replicate_succ']
      simp
    rw [hmore] at h
    intro c hc
    rw [mem_cons] at hc
    obtain rfl | hc := hc
    · rfl
    · exact ih h c hc

theorem last_of_prefix (h : text <+: double mark text) (hmark : mark ∈ text) :
    text.getLast? = some mark := by
  induction text with
  | nil => cases hmark
  | cons c text ih =>
    by_cases hc : c = mark
    · subst hc
      rw [double_mark, cons_prefix_cons] at h
      have hall := all_marks (k := 0) h.2
      rw [List.getLast?_cons]
      cases hlast : text.getLast? with
      | none => rfl
      | some d => rw [hall d (mem_of_getLast? hlast)]; rfl
    · rw [double_other hc, cons_prefix_cons] at h
      rw [mem_cons] at hmark
      rw [List.getLast?_cons, ih h.2 (hmark.resolve_left (Ne.symm hc))]
      rfl

end DeltaSwamp.Doubled
