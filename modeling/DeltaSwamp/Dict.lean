import Mathlib.Algebra.Order.BigOperators.Group.Finset
import Mathlib.Data.Finset.Lattice.Fold
import Mathlib.Data.List.Sort
import Mathlib.Data.Rat.Floor
import Mathlib.Order.Interval.Finset.Nat

/-!
# Dictionaries in insertion order

What a dictionary holds under a key after entries were written into it one by
one: the last writer wins (`update`), or the first (`fill`).
-/

namespace DeltaSwamp

open List

/-- The entries in the order their keys were first set. -/
abbrev Dict (κ β : Type) := List (κ × β)

namespace Dict

variable {κ β : Type} [DecidableEq κ]

def get : Dict κ β → κ → Option β
  | [], _ => none
  | (k', v') :: d, k => if k = k' then some v' else get d k

def set : Dict κ β → κ → β → Dict κ β
  | [], k, v => [(k, v)]
  | (k', v') :: d, k, v => if k' = k then (k, v) :: d else (k', v') :: set d k v

/-- `d[k] = v` for each entry in turn. -/
def update (d entries : Dict κ β) : Dict κ β := entries.foldl (fun d e => d.set e.1 e.2) d

/-- `d.setdefault(k, v)` for each entry in turn. -/
def fill (d entries : Dict κ β) : Dict κ β :=
  entries.foldl (fun d e => if (d.get e.1).isSome then d else d.set e.1 e.2) d

/-- `d.pop(k, None)`. -/
def pop (d : Dict κ β) (k : κ) : Dict κ β := d.filter fun e => e.1 ≠ k

theorem get_set (d : Dict κ β) (k : κ) (v : β) (j : κ) :
    (d.set k v).get j = if j = k then some v else d.get j := by
  induction d with
  | nil => rfl
  | cons e d ih =>
    obtain ⟨k', v'⟩ := e
    rw [set]
    by_cases hk : k' = k
    · rw [if_pos hk, get, get, hk]
      by_cases hj : j = k <;> simp [hj]
    · rw [if_neg hk, get, get, ih]
      by_cases hj : j = k'
      · simp [hj, hk]
      · simp [hj]

variable {d : Dict κ β} {k : κ}

theorem get_eq_none_iff : d.get k = none ↔ k ∉ d.map Prod.fst := by
  induction d with
  | nil => simp [get]
  | cons e d ih =>
    obtain ⟨k', v'⟩ := e
    rw [get, map_cons, mem_cons, not_or, ← ih]
    by_cases hk : k = k' <;> simp [hk]

variable {v : β}

theorem mem_of_get (h : d.get k = some v) : (k, v) ∈ d := by
  induction d with
  | nil => cases h
  | cons e d ih =>
    obtain ⟨k', v'⟩ := e
    rw [get] at h
    split_ifs at h with hk
    · rw [hk, ← Option.some.inj h]
      exact mem_cons_self
    · exact mem_cons_of_mem _ (ih h)

theorem get_of_mem (hd : (d.map Prod.fst).Nodup) (h : (k, v) ∈ d) : d.get k = some v := by
  induction d with
  | nil => cases h
  | cons e d ih =>
    obtain ⟨k', v'⟩ := e
    rw [map_cons, nodup_cons] at hd
    rw [get]
    rcases mem_cons.mp h with heq | hmem
    · cases heq
      exact if_pos rfl
    · have hne : k ≠ k' := fun heq => hd.1 (mem_map.mpr ⟨(k, v), hmem, heq⟩)
      rw [if_neg hne]
      exact ih hd.2 hmem

theorem get_filter (hd : (d.map Prod.fst).Nodup) (p : κ × β → Bool) :
    get (d.filter p) k = some v ↔ d.get k = some v ∧ p (k, v) = true := by
  have hfilter : ((d.filter p).map Prod.fst).Nodup :=
    hd.sublist (filter_sublist.map _)
  constructor
  · intro h
    have hmem := mem_filter.mp (mem_of_get h)
    exact ⟨get_of_mem hd hmem.1, hmem.2⟩
  · rintro ⟨h, hp⟩
    exact get_of_mem hfilter (mem_filter.mpr ⟨mem_of_get h, hp⟩)

theorem mem_keys_set (d : Dict κ β) (k : κ) (v : β) (j : κ) :
    j ∈ (d.set k v).map Prod.fst ↔ j = k ∨ j ∈ d.map Prod.fst := by
  induction d with
  | nil => simp [set]
  | cons e d ih =>
    obtain ⟨k', v'⟩ := e
    by_cases hk : k' = k
    · subst hk
      simp [set]
    · rw [set, if_neg hk, map_cons, map_cons, mem_cons, mem_cons, ih]
      exact or_left_comm

theorem mem_set {e : κ × β} (h : e ∈ d.set k v) : e = (k, v) ∨ e ∈ d := by
  induction d with
  | nil => exact .inl (mem_singleton.mp h)
  | cons e' d ih =>
    rw [set] at h
    split_ifs at h
    · exact (mem_cons.mp h).imp_right (mem_cons_of_mem _)
    · rcases mem_cons.mp h with rfl | h
      · exact .inr mem_cons_self
      · exact (ih h).imp_right (mem_cons_of_mem _)

variable {entries : Dict κ β}

theorem mem_update {e : κ × β} (h : e ∈ d.update entries) : e ∈ entries ∨ e ∈ d := by
  induction entries generalizing d with
  | nil => exact .inr h
  | cons e' entries ih =>
    rcases ih h with hmem | hmem
    · exact .inl (mem_cons_of_mem _ hmem)
    · rcases mem_set hmem with rfl | hmem
      · exact .inl mem_cons_self
      · exact .inr hmem

theorem update_unless (d entries : Dict κ β) (skip : κ × β → Bool) :
    entries.foldl (fun d e => if skip e then d else d.set e.1 e.2) d =
      d.update (entries.filter fun e => !skip e) := by
  rw [update, foldl_filter]
  congr 1
  funext d e
  cases skip e <;> rfl

theorem nodup_set (h : (d.map Prod.fst).Nodup) (k : κ) (v : β) :
    ((d.set k v).map Prod.fst).Nodup := by
  induction d with
  | nil => simp [set]
  | cons e d ih =>
    obtain ⟨k', v'⟩ := e
    rw [map_cons, nodup_cons] at h
    by_cases hk : k' = k
    · subst hk
      simpa [set] using h
    · rw [set, if_neg hk, map_cons, nodup_cons, mem_keys_set]
      exact ⟨fun hmem => hmem.elim hk h.1, ih h.2⟩

theorem nodup_update (h : (d.map Prod.fst).Nodup) (entries : Dict κ β) :
    ((d.update entries).map Prod.fst).Nodup := by
  induction entries generalizing d with
  | nil => exact h
  | cons e entries ih => exact ih (nodup_set h e.1 e.2)

theorem set_of_notMem (h : k ∉ d.map Prod.fst) (v : β) : d.set k v = d ++ [(k, v)] := by
  induction d with
  | nil => rfl
  | cons e d ih =>
    rw [map_cons, mem_cons, not_or] at h
    rw [set, if_neg (Ne.symm h.1), ih h.2]
    rfl

theorem update_of_nodup (h : ((d ++ entries).map Prod.fst).Nodup) :
    d.update entries = d ++ entries := by
  induction entries generalizing d with
  | nil => exact (append_nil d).symm
  | cons e entries ih =>
    have hassoc : d ++ e :: entries = d ++ [e] ++ entries := by simp
    have hfresh : e.1 ∉ d.map Prod.fst := by
      rw [map_append, map_cons, nodup_append] at h
      intro hmem
      exact h.2.2 _ hmem _ mem_cons_self rfl
    rw [hassoc] at h ⊢
    rw [← ih h, ← set_of_notMem hfresh e.2]
    rfl

theorem update_nil (h : (entries.map Prod.fst).Nodup) : update [] entries = entries :=
  update_of_nodup h

theorem nodup_pop (h : (d.map Prod.fst).Nodup) (k : κ) : ((d.pop k).map Prod.fst).Nodup :=
  h.sublist (filter_sublist.map _)

/-- What is given last is what a key has. -/
theorem get_update (d : Dict κ β) (h : (entries.map Prod.fst).Nodup) (k : κ) :
    (d.update entries).get k = (entries.get k).or (d.get k) := by
  induction entries generalizing d with
  | nil => rfl
  | cons e entries ih =>
    obtain ⟨k', v'⟩ := e
    rw [map_cons, nodup_cons] at h
    have hstep : update d ((k', v') :: entries) = update (d.set k' v') entries := rfl
    rw [hstep, ih _ h.2, get_set, get]
    by_cases hk : k = k'
    · subst hk
      have hnone : get entries k = none := get_eq_none_iff.mpr h.1
      simp [hnone]
    · simp [hk]

theorem get_pop (d : Dict κ β) (k j : κ) :
    (d.pop k).get j = if j = k then none else d.get j := by
  induction d with
  | nil => exact (ite_self _).symm
  | cons e d ih =>
    obtain ⟨k', v'⟩ := e
    have hstep : pop ((k', v') :: d) k = if k' ≠ k then (k', v') :: pop d k else pop d k := by
      simp only [pop, filter_cons, decide_eq_true_eq]
    rw [hstep]
    by_cases hk : k' = k
    · rw [if_neg (not_not.mpr hk), ih, get, hk]
      by_cases hj : j = k <;> simp [hj]
    · rw [if_pos hk, get, get, ih]
      by_cases hj : j = k'
      · simp [hj, hk]
      · simp [hj]

/-- Two dictionaries with the same entries: the order does not tell them apart. -/
def Same (d d' : Dict κ β) : Prop := ∀ k, d.get k = d'.get k

end Dict

end DeltaSwamp
