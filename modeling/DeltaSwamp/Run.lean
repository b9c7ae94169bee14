import Mathlib.Algebra.Order.BigOperators.Group.Finset
import Mathlib.Data.Finset.Lattice.Fold
import Mathlib.Data.List.Sort
import Mathlib.Data.Rat.Floor
import Mathlib.Logic.Relation
import Mathlib.Order.Interval.Finset.Nat

/-!
# Runs

The states a step function reaches, by steps that a condition on the state and
the event allows.
-/

namespace DeltaSwamp

section
variable {S E : Type} {next : S → E → Option S} {ok ok' : S → E → Prop} {start s t : S}

/-- The states reached from `start` by steps that `ok` allows. -/
inductive Run (next : S → E → Option S) (ok : S → E → Prop) (start : S) : S → Prop where
  | refl : Run next ok start start
  | step {s t : S} {e : E} : Run next ok start s → ok s e → next s e = some t →
      Run next ok start t

theorem Run.invariant {P : S → Prop} (hstart : P start)
    (hstep : ∀ s t e, P s → ok s e → next s e = some t → P t) (h : Run next ok start s) : P s := by
  induction h with
  | refl => exact hstart
  | step _ hok hnext ih => exact hstep _ _ _ ih hok hnext

theorem Run.weaken (hok : ∀ s e, ok s e → ok' s e) (h : Run next ok start s) :
    Run next ok' start s := by
  induction h with
  | refl => exact .refl
  | step _ hstep hnext ih => exact ih.step (hok _ _ hstep) hnext

theorem Run.trans (h : Run next ok start s) (h' : Run next ok s t) : Run next ok start t := by
  induction h' with
  | refl => exact h
  | step _ hok hnext ih => exact ih.step hok hnext

/-- The state after a list of events, if each step is there and allowed. -/
def replay (next : S → E → Option S) (ok : S → E → Prop) [∀ s e, Decidable (ok s e)] :
    S → List E → Option S
  | s, [] => some s
  | s, e :: es => if ok s e then (next s e).bind fun t => replay next ok t es else none

theorem Run.of_replay [∀ s e, Decidable (ok s e)] {es : List E}
    (h : replay next ok start es = some s) : Run next ok start s := by
  induction es generalizing start with
  | nil =>
    cases h
    exact .refl
  | cons e es ih =>
    simp only [replay] at h
    split_ifs at h with hok
    obtain ⟨t, ht, h⟩ := Option.bind_eq_some_iff.mp h
    exact Run.trans (.step .refl hok ht) (ih h)

/-- Where every step lowers a measure, no list of events is longer than the measure at the start. -/
theorem length_le_of_replay [∀ s e, Decidable (ok s e)] {P : S → Prop} {measure : S → Nat}
    (hstep : ∀ s t e, P s → ok s e → next s e = some t → P t ∧ measure t < measure s)
    {es : List E} (hstart : P start) (h : replay next ok start es = some s) :
    es.length + measure s ≤ measure start := by
  induction es generalizing start with
  | nil =>
    cases h
    simp
  | cons e es ih =>
    simp only [replay] at h
    split_ifs at h with hok
    obtain ⟨t, ht, h⟩ := Option.bind_eq_some_iff.mp h
    obtain ⟨hP, hlt⟩ := hstep start t e hstart hok ht
    have hrest := ih hP h
    rw [List.length_cons]
    omega

end

section
variable {α : Type} {R S : α → α → Prop} {a b c x y : α} {as bs : List (α × α)}

inductive Trail (R : α → α → Prop) : α → List (α × α) → α → Prop where
  | nil (a : α) : Trail R a [] a
  | cons {a b c : α} {as : List (α × α)} : R a b → Trail R b as c → Trail R a ((a, b) :: as) c

theorem Trail.single (h : R a b) : Trail R a [(a, b)] b := .cons h (.nil b)

theorem Trail.append (h : Trail R a as b) (h' : Trail R b bs c) : Trail R a (as ++ bs) c := by
  induction h with
  | nil => exact h'
  | cons hstep _ ih => exact .cons hstep (ih h')

theorem Trail.mono (hRS : ∀ x y, R x y → S x y) (h : Trail R a as b) : Trail S a as b := by
  induction h with
  | nil => exact .nil _
  | cons hstep _ ih => exact .cons (hRS _ _ hstep) ih

theorem Trail.carry {P : α → Prop} (h : Trail R a as b)
    (hstep : ∀ x y, (x, y) ∈ as → R x y → P x → P y) (ha : P a) : P b := by
  induction h with
  | nil => exact ha
  | cons hR _ ih =>
    apply ih
    · intro x y hxy
      exact hstep x y (List.mem_cons_of_mem _ hxy)
    · exact hstep _ _ List.mem_cons_self hR ha

theorem Trail.split (h : Trail R a as b) (hxy : (x, y) ∈ as) :
    ∃ before after, Trail R a before x ∧ R x y ∧ Trail R y after b := by
  induction h with
  | nil => simp at hxy
  | cons hstep hrest ih =>
    obtain heq | hxy := List.mem_cons.mp hxy
    · cases heq
      exact ⟨[], _, .nil _, hstep, hrest⟩
    · obtain ⟨before, after, hbefore, hR, hafter⟩ := ih hxy
      exact ⟨_, after, .cons hstep hbefore, hR, hafter⟩

theorem Trail.eq_of_no_target (hb : ∀ x, ¬ R x b) (h : Trail R a as b) : a = b := by
  induction h with
  | nil => rfl
  | cons hstep _ ih =>
    cases ih hb
    exact absurd hstep (hb _)

theorem Trail.eq_of_no_source (ha : ∀ x, ¬ R a x) (h : Trail R a as b) : b = a := by
  cases h with
  | nil => rfl
  | cons hstep _ => exact absurd hstep (ha _)

end

end DeltaSwamp
