import Mathlib.Algebra.Order.Monoid.Defs
import Mathlib.Data.List.MinMax
import Mathlib.Data.Prod.Lex

/-!
# Taking the least

A priority queue by the bag of what it holds: `popLeast` takes the least of it. Loads that are
raised only at the least of them stay within the largest raise of each other.
-/

namespace DeltaSwamp.Heap

section
variable {α : Type} [LinearOrder α]

/-- The least of the queue and what stays in it. -/
def popLeast (queue : List α) : Option (α × List α) :=
  queue.min?.map fun least => (least, queue.erase least)

/-- The least is taken, and the rest is left. -/
theorem popLeast_eq_some {queue rest : List α} {least : α}
    (h : popLeast queue = some (least, rest)) :
    queue.Perm (least :: rest) ∧ ∀ e ∈ queue, least ≤ e := by
  unfold popLeast at h
  rw [Option.map_eq_some_iff] at h
  obtain ⟨found, hmin, heq⟩ := h
  simp only [Prod.mk.injEq] at heq
  obtain ⟨rfl, rfl⟩ := heq
  obtain ⟨hmem, hle⟩ := List.min?_eq_some_iff.mp hmin
  exact ⟨List.perm_cons_erase hmem, hle⟩

theorem exists_popLeast {queue : List α} (h : queue ≠ []) :
    ∃ least rest, popLeast queue = some (least, rest) := by
  unfold popLeast
  cases hmin : queue.min? with
  | none => exact absurd (List.min?_eq_none_iff.mp hmin) h
  | some least => exact ⟨least, queue.erase least, rfl⟩

end

section
variable {α : Type} [AddCommMonoid α] [LinearOrder α] {w : α} {loads rest : List α}

/-- No load is more than `w` above another. -/
def Spread (w : α) (loads : List α) : Prop := ∀ a ∈ loads, ∀ b ∈ loads, a ≤ b + w

theorem Spread.perm {others : List α} (h : Spread w loads) (hperm : others.Perm loads) :
    Spread w others :=
  fun a ha b hb => h a (hperm.subset ha) b (hperm.subset hb)

variable [IsOrderedAddMonoid α]

theorem spread_replicate (hw : 0 ≤ w) (n : Nat) (a : α) : Spread w (List.replicate n a) := by
  intro b hb c hc
  rw [List.eq_of_mem_replicate hb, List.eq_of_mem_replicate hc]
  exact le_add_of_nonneg_right hw

theorem Spread.raise {least s : α} (h : Spread w (least :: rest))
    (hleast : ∀ a ∈ rest, least ≤ a) (hpos : 0 ≤ s) (hs : s ≤ w) :
    Spread w ((least + s) :: rest) := by
  intro a ha b hb
  cases List.mem_cons.mp ha with
  | inl hnew =>
    cases List.mem_cons.mp hb with
    | inl hnew' =>
      rw [hnew, hnew']
      exact le_add_of_nonneg_right (hpos.trans hs)
    | inr hold =>
      rw [hnew]
      exact add_le_add (hleast b hold) hs
  | inr hold =>
    cases List.mem_cons.mp hb with
    | inl hnew =>
      have hbound := h a (by simp [hold]) least (by simp)
      rw [hnew]
      exact hbound.trans (add_le_add_left (le_add_of_nonneg_right hpos) w)
    | inr hold' => exact h a (by simp [hold]) b (by simp [hold'])

end

end DeltaSwamp.Heap
