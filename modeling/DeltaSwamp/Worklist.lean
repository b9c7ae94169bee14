import Mathlib.Algebra.Order.BigOperators.Group.Finset
import Mathlib.Data.Finset.Lattice.Fold
import Mathlib.Data.List.Sort
import Mathlib.Data.Rat.Floor
import Mathlib.Order.Interval.Finset.Nat

/-!
# Worklists

What a worklist reaches along the edges of a finite graph: everything it
starts with, and with each node the nodes after it.
-/

namespace DeltaSwamp.Worklist

open List

variable {α : Type} [DecidableEq α]

/-- Edges that lead into finitely many nodes. -/
structure Graph (α : Type) where
  next : α → List α
  nodes : List α
  next_mem : ∀ a, ∀ b ∈ next a, b ∈ nodes

/-- The nodes the worklist has still to meet. -/
def unmet (g : Graph α) (seen pending : List α) : Finset α :=
  (pending.toFinset ∪ g.nodes.toFinset) \ seen.toFinset

theorem unmet_pop (g : Graph α) (seen pending : List α) (a : α) :
    unmet g seen pending ⊆ unmet g seen (a :: pending) := by
  intro b
  simp only [unmet, toFinset_cons, Finset.mem_sdiff, Finset.mem_union, Finset.mem_insert]
  rintro ⟨hb | hb, hseen⟩
  · exact ⟨.inl (.inr hb), hseen⟩
  · exact ⟨.inr hb, hseen⟩

theorem unmet_push (g : Graph α) (seen pending : List α) (a : α) :
    unmet g (a :: seen) (g.next a ++ pending) ⊆ (unmet g seen (a :: pending)).erase a := by
  intro b
  simp only [unmet, toFinset_append, toFinset_cons, Finset.mem_sdiff, Finset.mem_union,
    Finset.mem_insert, mem_toFinset, not_or, Finset.mem_erase]
  rintro ⟨(hb | hb) | hb, hne, hseen⟩
  · exact ⟨hne, .inr (g.next_mem a b hb), hseen⟩
  · exact ⟨hne, .inl (.inr hb), hseen⟩
  · exact ⟨hne, .inr hb, hseen⟩

/-- What is still to be taken from the worklist. -/
def work (g : Graph α) (seen pending : List α) : Nat :=
  pending.length + ∑ b ∈ unmet g seen pending, (g.next b).length

theorem work_pop (g : Graph α) (seen pending : List α) (a : α) :
    work g seen pending < work g seen (a :: pending) := by
  have hle : ∑ b ∈ unmet g seen pending, (g.next b).length ≤
      ∑ b ∈ unmet g seen (a :: pending), (g.next b).length :=
    Finset.sum_le_sum_of_subset (unmet_pop g seen pending a)
  simp only [work, length_cons]
  omega

variable {seen pending : List α}

theorem work_push (g : Graph α) {a : α} (h : a ∉ seen) :
    work g (a :: seen) (g.next a ++ pending) < work g seen (a :: pending) := by
  have hmem : a ∈ unmet g seen (a :: pending) := by simp [unmet, h]
  have hle : ∑ b ∈ unmet g (a :: seen) (g.next a ++ pending), (g.next b).length ≤
      ∑ b ∈ (unmet g seen (a :: pending)).erase a, (g.next b).length :=
    Finset.sum_le_sum_of_subset (unmet_push g seen pending a)
  have hsum := Finset.add_sum_erase _ (fun b => (g.next b).length) hmem
  simp only [work, length_append, length_cons]
  omega

/-- Every node reached from `seen` and `pending`, the head of `pending` first. -/
def close (g : Graph α) (seen : List α) : List α → List α
  | [] => seen
  | a :: pending =>
    if a ∈ seen then close g seen pending else close g (a :: seen) (g.next a ++ pending)
termination_by pending => work g seen pending
decreasing_by
  · exact work_pop g seen pending a
  · rename_i ha
    exact work_push g ha

theorem seen_subset_close (g : Graph α) (seen pending : List α) : seen ⊆ close g seen pending := by
  fun_induction close g seen pending with
  | case1 seen => exact List.Subset.refl _
  | case2 seen a pending ha ih => exact ih
  | case3 seen a pending ha ih => exact fun b hb => ih (mem_cons_of_mem a hb)

theorem pending_subset_close (g : Graph α) (seen pending : List α) :
    pending ⊆ close g seen pending := by
  fun_induction close g seen pending with
  | case1 seen => exact nil_subset _
  | case2 seen a pending ha ih =>
    exact cons_subset.mpr ⟨seen_subset_close g seen pending ha, ih⟩
  | case3 seen a pending ha ih =>
    refine cons_subset.mpr ⟨?_, fun b hb => ih (mem_append_right _ hb)⟩
    exact seen_subset_close g _ _ mem_cons_self

/-- What the worklist closes is closed. -/
theorem next_subset_close (g : Graph α) (h : ∀ a ∈ seen, ∀ b ∈ g.next a, b ∈ seen ∨ b ∈ pending)
    {a b : α} (ha : a ∈ close g seen pending) (hb : b ∈ g.next a) : b ∈ close g seen pending := by
  fun_induction close g seen pending with
  | case1 seen =>
    rcases h a ha b hb with h | h
    · exact h
    · simp at h
  | case2 seen c pending hc ih =>
    refine ih (fun x hx y hy => ?_) ha
    rcases h x hx y hy with h | h
    · exact .inl h
    · rcases mem_cons.mp h with rfl | h
      · exact .inl hc
      · exact .inr h
  | case3 seen c pending hc ih =>
    refine ih (fun x hx y hy => ?_) ha
    rcases mem_cons.mp hx with rfl | hx
    · exact .inr (mem_append_left _ hy)
    · rcases h x hx y hy with h | h
      · exact .inl (mem_cons_of_mem _ h)
      · rcases mem_cons.mp h with rfl | h
        · exact .inl mem_cons_self
        · exact .inr (mem_append_right _ h)

theorem close_subset (g : Graph α) {s : List α} (hseen : seen ⊆ s) (hpending : pending ⊆ s)
    (hs : ∀ a ∈ s, g.next a ⊆ s) : close g seen pending ⊆ s := by
  fun_induction close g seen pending with
  | case1 seen => exact hseen
  | case2 seen a pending ha ih => exact ih hseen fun b hb => hpending (mem_cons_of_mem _ hb)
  | case3 seen a pending ha ih =>
    have hmem : a ∈ s := hpending mem_cons_self
    apply ih
    · intro b hb
      obtain rfl | hb := mem_cons.mp hb
      · exact hmem
      · exact hseen hb
    · intro b hb
      obtain hb | hb := mem_append.mp hb
      · exact hs a hmem hb
      · exact hpending (mem_cons_of_mem _ hb)

end DeltaSwamp.Worklist
