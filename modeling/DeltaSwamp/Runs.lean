import Mathlib.Algebra.Order.BigOperators.Group.Finset
import Mathlib.Data.Finset.Lattice.Fold
import Mathlib.Data.List.Sort
import Mathlib.Data.Rat.Floor
import Mathlib.Order.Interval.Finset.Nat

/-!
# Runs of a sorted list

A list sorted by a key, cut into one slice for each key: counting the keys
gives the lengths of the slices.
-/

namespace DeltaSwamp.Runs

/-- The values of a list with how often each is there, in the order they first appear. -/
def valueCounts {κ : Type} [DecidableEq κ] (l : List κ) : List (κ × Nat) :=
  l.reverse.dedup.reverse.map fun v => (v, l.count v)

/-- Consecutive slices of a list, one for each length given. -/
def slices {κ α : Type} (l : List α) : List (κ × Nat) → Nat → List (κ × List α)
  | [], _ => []
  | (v, n) :: rest, offset => (v, (l.drop offset).take n) :: slices l rest (offset + n)

section
variable {κ : Type} [LinearOrder κ] {α : Type} (key : α → κ)

def Sorted (l : List α) : Prop := l.Pairwise fun a b => key a ≤ key b

variable {key}

theorem mem_distinct {l : List κ} {v : κ} : v ∈ l.reverse.dedup.reverse ↔ v ∈ l := by
  simp

theorem distinct_increasing {l : List κ} (h : l.Pairwise (· ≤ ·)) :
    l.reverse.dedup.reverse.Pairwise (· < ·) := by
  have hnodup : l.reverse.dedup.reverse.Nodup := List.nodup_reverse.mpr (List.nodup_dedup _)
  have hsorted : l.reverse.dedup.reverse.Pairwise (· ≤ ·) := by
    rw [List.pairwise_reverse]
    exact (List.pairwise_reverse.mpr h).sublist (List.dedup_sublist _)
  exact (hsorted.and hnodup).imp fun hboth => lt_of_le_of_ne hboth.1 hboth.2

/-- The rows of the least key come first. -/
theorem take_count {l : List α} (h : Sorted key l) {v : κ} (hleast : ∀ a ∈ l, v ≤ key a) :
    l.take ((l.map key).count v) = l.filter (fun a => key a = v) ∧
      l.drop ((l.map key).count v) = l.filter (fun a => key a ≠ v) := by
  induction l with
  | nil => simp
  | cons a l ih =>
    obtain ⟨hfirst, hrest⟩ := List.pairwise_cons.mp h
    by_cases hv : key a = v
    · obtain ⟨htake, hdrop⟩ := ih hrest fun b hb => hleast b (List.mem_cons_of_mem a hb)
      simp only [List.map_cons, hv, List.count_cons_self, List.take_succ_cons,
        List.drop_succ_cons]
      rw [List.filter_cons_of_pos (by simp [hv]), List.filter_cons_of_neg (by simp [hv]), htake,
        hdrop]
      exact ⟨rfl, rfl⟩
    · have hlt : v < key a := lt_of_le_of_ne (hleast a List.mem_cons_self) (Ne.symm hv)
      have hnone : ∀ b ∈ a :: l, key b ≠ v := by
        intro b hb
        rcases List.mem_cons.mp hb with rfl | hb
        · exact hv
        · exact (lt_of_lt_of_le hlt (hfirst b hb)).ne'
      have hcount : ((a :: l).map key).count v = 0 := by
        rw [List.count_eq_zero]
        intro hmem
        obtain ⟨b, hb, hkey⟩ := List.mem_map.mp hmem
        exact hnone b hb hkey
      rw [hcount, List.take_zero, List.drop_zero]
      constructor
      · exact (List.filter_eq_nil_iff.mpr fun b hb => by simpa using hnone b hb).symm
      · exact (List.filter_eq_self.mpr fun b hb => by simpa using hnone b hb).symm

theorem slices_shift {γ : Type} (l : List α) (counts : List (γ × Nat)) (offset more : Nat) :
    slices l counts (offset + more) = slices (l.drop offset) counts more := by
  induction counts generalizing more with
  | nil => rfl
  | cons e counts ih =>
    rw [slices, slices, List.drop_drop, Nat.add_assoc, ih]

/-- Sorted by key, the slices are the rows of each key. -/
theorem slices_sorted {l : List α} (h : Sorted key l) {vs : List κ} (hvs : vs.Pairwise (· < ·))
    (hall : ∀ a ∈ l, key a ∈ vs) :
    slices l (vs.map fun v => (v, (l.map key).count v)) 0 =
      vs.map fun v => (v, l.filter fun a => key a = v) := by
  induction vs generalizing l with
  | nil => rfl
  | cons v vs ih =>
    obtain ⟨hfirst, hrest⟩ := List.pairwise_cons.mp hvs
    have hleast : ∀ a ∈ l, v ≤ key a := by
      intro a ha
      rcases List.mem_cons.mp (hall a ha) with hv | hv
      · exact hv.ge
      · exact (hfirst _ hv).le
    obtain ⟨htake, hdrop⟩ := take_count h hleast
    have hothers : Sorted key (l.filter fun a => key a ≠ v) := List.Pairwise.filter _ h
    have hthere : ∀ a ∈ l.filter (fun a => key a ≠ v), key a ∈ vs := by
      intro a ha
      obtain ⟨ha, hne⟩ := List.mem_filter.mp ha
      rcases List.mem_cons.mp (hall a ha) with hv | hv
      · exact absurd hv (by simpa using hne)
      · exact hv
    have hkept : ∀ w ∈ vs, (l.filter fun a => key a ≠ v).filter (fun a => key a = w) =
        l.filter fun a => key a = w := by
      intro w hw
      rw [List.filter_filter]
      refine List.filter_congr fun a _ => ?_
      by_cases hkey : key a = w
      · have hne : w ≠ v := (hfirst w hw).ne'
        simp [hkey, hne]
      · simp [hkey]
    have hcounts : ∀ w ∈ vs, ((l.filter fun a => key a ≠ v).map key).count w =
        (l.map key).count w := by
      intro w hw
      rw [List.count_eq_length_filter, List.count_eq_length_filter, List.filter_map,
        List.filter_map, List.length_map, List.length_map]
      have hsame := congrArg List.length (hkept w hw)
      simpa [Function.comp_def, beq_eq_decide] using hsame
    have hmap : vs.map (fun w => (w, (l.map key).count w)) =
        vs.map fun w => (w, ((l.filter fun a => key a ≠ v).map key).count w) :=
      List.map_congr_left fun w hw => by rw [hcounts w hw]
    have hstep := slices_shift l (vs.map fun w => (w, (l.map key).count w))
      ((l.map key).count v) 0
    rw [List.map_cons, List.map_cons, slices, List.drop_zero, htake, Nat.zero_add]
    rw [Nat.add_zero] at hstep
    rw [hstep, hdrop, hmap, ih hothers hrest hthere]
    refine congrArg (List.cons _) (List.map_congr_left fun w hw => ?_)
    rw [hkept w hw]

theorem slices_valueCounts {l : List α} (h : Sorted key l) :
    slices l (valueCounts (l.map key)) 0 =
      (l.map key).reverse.dedup.reverse.map fun v => (v, l.filter fun a => key a = v) := by
  refine slices_sorted h (distinct_increasing (List.pairwise_map.mpr h)) fun a ha => ?_
  exact mem_distinct.mpr (List.mem_map_of_mem ha)

end

end DeltaSwamp.Runs
