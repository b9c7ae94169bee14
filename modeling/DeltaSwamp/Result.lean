import Mathlib.Algebra.Order.BigOperators.Group.Finset
import Mathlib.Data.Finset.Lattice.Fold
import Mathlib.Data.List.Sort
import Mathlib.Data.Rat.Floor
import Mathlib.Order.Interval.Finset.Nat

/-!
# Computations that may fail

What a successful run of a fallible computation, or of one over a list, says
of its steps.
-/

namespace DeltaSwamp.Result

open List

variable {ε α β : Type}

theorem ok_bind (a : α) (f : α → Except ε β) : (Except.ok a >>= f) = f a := rfl

variable {x : Except ε α} {f : α → Except ε β} {b : β}

theorem bind_eq_ok_iff : (x >>= f) = .ok b ↔ ∃ a, x = .ok a ∧ f a = .ok b := by
  cases x with
  | error e => simp [bind, Except.bind]
  | ok a => simp [bind, Except.bind]

variable {e : ε}

theorem bind_eq_error_iff :
    (x >>= f) = .error e ↔ x = .error e ∨ ∃ a, x = .ok a ∧ f a = .error e := by
  cases x with
  | error e' => simp [bind, Except.bind]
  | ok a => simp [bind, Except.bind]

@[simp] theorem pure_eq_ok_iff {a b : α} : (pure a : Except ε α) = .ok b ↔ a = b := by
  simp [pure, Except.pure]

theorem guard_eq_ok_iff {c : Prop} [Decidable c] {k : α → Except ε β} {x : Except ε β} :
    (if c then (Except.error e >>= k) else x) = .ok b ↔ ¬ c ∧ x = .ok b := by
  by_cases hc : c
  · simp [hc, bind, Except.bind]
  · simp [hc]

theorem map_eq_ok_iff {f : α → β} : x.map f = .ok b ↔ ∃ a, x = .ok a ∧ f a = b := by
  cases x with
  | error e => simp [Except.map]
  | ok a => simp [Except.map]

theorem elim_error_iff {o : Option α} :
    o.elim (.error e) f = .ok b ↔ ∃ a, o = some a ∧ f a = .ok b := by
  cases o with
  | none => simp
  | some a => simp

variable {xs : List α}

theorem forM_eq_ok_iff {f : α → Except ε Unit} : xs.forM f = .ok () ↔ ∀ x ∈ xs, f x = .ok () := by
  induction xs with
  | nil => simp [pure, Except.pure]
  | cons x xs ih =>
    rw [List.forM, bind_eq_ok_iff]
    simp only [ih, mem_cons, forall_eq_or_imp]
    constructor
    · rintro ⟨⟨⟩, hx, hxs⟩
      exact ⟨hx, hxs⟩
    · rintro ⟨hx, hxs⟩
      exact ⟨(), hx, hxs⟩

variable {ys : List β}

theorem mem_of_mapM_ok (h : xs.mapM f = .ok ys) (y : β) : y ∈ ys ↔ ∃ x ∈ xs, f x = .ok y := by
  induction xs generalizing ys with
  | nil =>
    rw [mapM_nil, pure_eq_ok_iff] at h
    simp [← h]
  | cons x xs ih =>
    rw [mapM_cons, bind_eq_ok_iff] at h
    obtain ⟨b, hb, h⟩ := h
    obtain ⟨bs, hbs, h⟩ := bind_eq_ok_iff.mp h
    rw [pure_eq_ok_iff] at h
    simp [← h, ih hbs, hb, eq_comm]

theorem forall₂_of_mapM_ok (h : xs.mapM f = .ok ys) :
    List.Forall₂ (fun x y => f x = .ok y) xs ys := by
  induction xs generalizing ys with
  | nil =>
    rw [mapM_nil, pure_eq_ok_iff] at h
    exact h ▸ List.Forall₂.nil
  | cons x xs ih =>
    rw [mapM_cons, bind_eq_ok_iff] at h
    obtain ⟨b, hb, h⟩ := h
    obtain ⟨bs, hbs, h⟩ := bind_eq_ok_iff.mp h
    rw [pure_eq_ok_iff] at h
    exact h ▸ List.Forall₂.cons hb (ih hbs)

theorem map_eq_of_mapM_ok {γ : Type} {p : β → γ} {q : α → γ} (hf : ∀ x y, f x = .ok y → p y = q x)
    (h : xs.mapM f = .ok ys) : ys.map p = xs.map q := by
  induction xs generalizing ys with
  | nil =>
    rw [mapM_nil, pure_eq_ok_iff] at h
    simp [← h]
  | cons x xs ih =>
    rw [mapM_cons, bind_eq_ok_iff] at h
    obtain ⟨b, hb, h⟩ := h
    obtain ⟨bs, hbs, h⟩ := bind_eq_ok_iff.mp h
    rw [pure_eq_ok_iff] at h
    simp [← h, hf x b hb, ih hbs]

theorem mapM_eq_ok {g : α → β} (h : ∀ x ∈ xs, f x = .ok (g x)) : xs.mapM f = .ok (xs.map g) := by
  induction xs with
  | nil => rfl
  | cons x xs ih =>
    rw [mapM_cons, h x mem_cons_self, ih fun y hy => h y (mem_cons_of_mem x hy)]
    rfl

theorem exists_mapM_ok (h : ∀ x ∈ xs, ∃ y, f x = .ok y) : ∃ ys, xs.mapM f = .ok ys := by
  induction xs with
  | nil => exact ⟨[], rfl⟩
  | cons x xs ih =>
    obtain ⟨y, hy⟩ := h x mem_cons_self
    obtain ⟨ys, hys⟩ := ih fun z hz => h z (mem_cons_of_mem x hz)
    refine ⟨y :: ys, ?_⟩
    rw [mapM_cons, hy, hys]
    rfl

theorem exists_ok_of_mapM_ok (h : xs.mapM f = .ok ys) : ∀ x ∈ xs, ∃ y, f x = .ok y := by
  induction xs generalizing ys with
  | nil => simp
  | cons x xs ih =>
    rw [mapM_cons, bind_eq_ok_iff] at h
    obtain ⟨b, hb, h⟩ := h
    obtain ⟨bs, hbs, -⟩ := bind_eq_ok_iff.mp h
    intro z hz
    rcases mem_cons.mp hz with rfl | hz
    · exact ⟨b, hb⟩
    · exact ih hbs z hz

/-- What each step keeps, a fold that succeeds keeps. -/
theorem invariant_of_foldlM_ok {f : β → α → Except ε β} {P : β → Prop}
    (hstep : ∀ b a b', f b a = .ok b' → P b → P b') {b' : β} (h : xs.foldlM f b = .ok b')
    (hb : P b) :
    P b' := by
  induction xs generalizing b with
  | nil =>
    rw [foldlM_nil, pure_eq_ok_iff] at h
    exact h ▸ hb
  | cons x xs ih =>
    rw [foldlM_cons, bind_eq_ok_iff] at h
    obtain ⟨c, hc, h⟩ := h
    exact ih h (hstep b x c hc hb)

theorem le_of_find?_eq_some [LinearOrder α] {l : List α} (h : l.Pairwise (· ≥ ·)) {p : α → Bool}
    {k : α} (hf : l.find? p = some k) : ∀ v ∈ l, p v = true → v ≤ k := by
  induction l with
  | nil => simp
  | cons a l ih =>
    intro v hv hp
    obtain ⟨hge, hl⟩ := pairwise_cons.mp h
    by_cases ha : p a = true
    · rw [List.find?_cons_of_pos ha] at hf
      cases hf
      rcases mem_cons.mp hv with rfl | hv
      · exact le_rfl
      · exact hge v hv
    · rw [List.find?_cons_of_neg ha] at hf
      rcases mem_cons.mp hv with rfl | hv
      · exact absurd hp ha
      · exact ih hl hf v hv hp

end DeltaSwamp.Result
