import Mathlib.Algebra.Order.BigOperators.Group.Finset
import Mathlib.Data.Finset.Lattice.Fold
import Mathlib.Data.List.Sort
import Mathlib.Data.Rat.Floor
import Mathlib.Order.Interval.Finset.Nat

/-!
# Association lists with distinct keys

What such a list holds under a key, after a `filterMap` of its values and
summed over its keys.
-/

namespace DeltaSwamp.Assoc

open List

variable {α β : Type}

/-- The values that are there, each under its key. -/
def present (l : List (α × Option β)) : List (α × β) :=
  l.filterMap fun p => p.2.map fun v => (p.1, v)

variable {l : List (α × Option β)} {k : α}

theorem mem_present {v : β} : (k, v) ∈ present l ↔ (k, some v) ∈ l := by
  simp only [present, mem_filterMap, Option.map_eq_some_iff, Prod.mk.injEq, Prod.exists]
  constructor
  · rintro ⟨k', o, hmem, v', rfl, rfl, rfl⟩
    exact hmem
  · intro hmem
    exact ⟨k, some v, hmem, v, rfl, rfl, rfl⟩

theorem keys_present_sublist (l : List (α × Option β)) :
    ((present l).map Prod.fst).Sublist (l.map Prod.fst) := by
  induction l with
  | nil => simp [present]
  | cons p l ih =>
    obtain ⟨k, o⟩ := p
    cases o with
    | none => simpa [present] using ih.cons k
    | some v => simpa [present] using ih.cons_cons k

variable [BEq α] [LawfulBEq α]

theorem lookup_eq_some_iff {l : List (α × β)} (h : (l.map Prod.fst).Nodup) (k : α) (v : β) :
    l.lookup k = some v ↔ (k, v) ∈ l := by
  induction l with
  | nil => simp
  | cons p l ih =>
    obtain ⟨a, b⟩ := p
    rw [map_cons, nodup_cons] at h
    by_cases hk : k = a
    · subst hk
      have hnot : (k, v) ∉ l := fun hmem => h.1 (mem_map.mpr ⟨(k, v), hmem, rfl⟩)
      simp [hnot, eq_comm]
    · have hbeq : (k == a) = false := beq_false_of_ne hk
      rw [lookup_cons, hbeq]
      simp [ih h.2, hk]

theorem lookup_eq_none_iff {l : List (α × β)} (k : α) :
    l.lookup k = none ↔ k ∉ l.map Prod.fst := by
  induction l with
  | nil => simp
  | cons p l ih =>
    obtain ⟨a, b⟩ := p
    by_cases hk : k = a
    · simp [hk]
    · have hbeq : (k == a) = false := beq_false_of_ne hk
      rw [lookup_cons, hbeq]
      simp only [ih, map_cons, mem_cons, hk, false_or]

theorem lookup_present (h : (l.map Prod.fst).Nodup) {o : Option β} (hmem : (k, o) ∈ l) :
    (present l).lookup k = o := by
  have hkeys := h.sublist (keys_present_sublist l)
  cases o with
  | some v => exact (lookup_eq_some_iff hkeys k v).mpr (mem_present.mpr hmem)
  | none =>
    rw [lookup_eq_none_iff]
    intro hk
    obtain ⟨⟨k', v⟩, hv, rfl⟩ := mem_map.mp hk
    have hsome := (lookup_eq_some_iff h k' (some v)).mpr (mem_present.mp hv)
    have hnone := (lookup_eq_some_iff h k' none).mpr hmem
    rw [hsome] at hnone
    cases hnone

theorem lookup_present_none (h : k ∉ l.map Prod.fst) : (present l).lookup k = none := by
  rw [lookup_eq_none_iff]
  exact fun hk => h ((keys_present_sublist l).subset hk)

/-- A sum over the entries, by their keys. -/
theorem sum_lookup {l : List (α × β)} (h : (l.map Prod.fst).Nodup) {ks : List α}
    (hks : ks.Nodup) (hsub : ∀ k ∈ l.map Prod.fst, k ∈ ks) (g : β → Nat) :
    (ks.map fun k => ((l.lookup k).map g).getD 0).sum = (l.map fun p => g p.2).sum := by
  induction l with
  | nil => simp
  | cons p l ih =>
    obtain ⟨a, b⟩ := p
    rw [map_cons, nodup_cons] at h
    have ha : a ∈ ks := hsub a mem_cons_self
    have hrest := ih h.2 fun k hk => hsub k (mem_cons_of_mem a hk)
    have hnone : l.lookup a = none := (lookup_eq_none_iff a).mpr h.1
    have hperm := perm_cons_erase ha
    have hsplit : ∀ f : α → Nat, (ks.map f).sum = f a + ((ks.erase a).map f).sum := by
      intro f
      simpa using (hperm.map f).sum_eq
    have hsame : ((ks.erase a).map fun k => ((((a, b) :: l).lookup k).map g).getD 0) =
        (ks.erase a).map fun k => ((l.lookup k).map g).getD 0 := by
      refine map_congr_left fun k hk => ?_
      have hbeq : (k == a) = false := beq_false_of_ne (hks.mem_erase_iff.mp hk).1
      rw [lookup_cons, hbeq]
    rw [hsplit, hsame, map_cons, sum_cons, ← hrest, hsplit]
    simp [hnone]

end DeltaSwamp.Assoc
