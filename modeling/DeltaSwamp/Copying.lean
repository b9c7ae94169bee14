import Mathlib.Algebra.Order.BigOperators.Group.Finset
import Mathlib.Data.Finset.Lattice.Fold
import Mathlib.Data.List.Sort
import Mathlib.Data.Rat.Floor
import Mathlib.Order.Interval.Finset.Nat

/-!
# Copying objects one after another

A list of copies, each from one place to another, made in order over a store
of objects: when every copy has, at the end, what its place of origin held at
the start.
-/

namespace DeltaSwamp.Copying

open List

theorem pairwise_of_split {α : Type} {R : α → α → Prop} {l : List α}
    (h : ∀ before x rest, l = before ++ x :: rest → ∀ a ∈ before, R a x) : l.Pairwise R := by
  induction l with
  | nil => exact List.Pairwise.nil
  | cons a l ih =>
    refine pairwise_cons.mpr ⟨fun x hx => ?_, ih fun before x rest hl b hb => ?_⟩
    · obtain ⟨before, rest, rfl⟩ := append_of_mem hx
      exact h (a :: before) x rest rfl a mem_cons_self
    · exact h (a :: before) x rest (by rw [hl, cons_append]) b (mem_cons_of_mem a hb)

variable {κ β : Type} [DecidableEq κ]

/-- What is at each place. -/
abbrev Objects (κ β : Type) := κ → Option β

/-- The copies, made in order; none when one of them finds nothing to copy. -/
def copyAll : List (κ × κ) → Objects κ β → Option (Objects κ β)
  | [], objects => some objects
  | m :: ms, objects =>
    (objects m.1).bind fun content => copyAll ms (Function.update objects m.2 (some content))

/-- No copy is written over another, nor over what a later one reads. -/
def Clear (moves : List (κ × κ)) : Prop := moves.Pairwise fun a b => a.2 ≠ b.2 ∧ a.2 ≠ b.1

variable {moves before rest : List (κ × κ)} {m : κ × κ} {o o' : Objects κ β}

theorem copyAll_cons (h : copyAll (m :: moves) o = some o') :
    ∃ content, o m.1 = some content ∧
      copyAll moves (Function.update o m.2 (some content)) = some o' :=
  Option.bind_eq_some_iff.mp h

theorem copyAll_append (h : copyAll (before ++ rest) o = some o') :
    ∃ between, copyAll before o = some between ∧ copyAll rest between = some o' := by
  induction before generalizing o with
  | nil => exact ⟨o, rfl, h⟩
  | cons m before ih =>
    obtain ⟨content, hread, h⟩ := copyAll_cons h
    obtain ⟨between, hbefore, hrest⟩ := ih h
    refine ⟨between, ?_, hrest⟩
    rw [copyAll, hread, Option.bind_some, hbefore]

theorem copyAll_of_notMem {place : κ} (h : copyAll moves o = some o')
    (hplace : place ∉ moves.map Prod.snd) : o' place = o place := by
  induction moves generalizing o with
  | nil =>
    cases h
    rfl
  | cons m moves ih =>
    obtain ⟨content, -, h⟩ := copyAll_cons h
    rw [map_cons, mem_cons, not_or] at hplace
    rw [ih h hplace.2, Function.update_of_ne hplace.1]

theorem copyAll_read (h : copyAll (before ++ m :: rest) o = some o')
    (hlast : m.2 ∉ rest.map Prod.snd) :
    ∃ between, copyAll before o = some between ∧ o' m.2 = between m.1 := by
  obtain ⟨between, hbefore, h⟩ := copyAll_append h
  obtain ⟨content, hread, h⟩ := copyAll_cons h
  refine ⟨between, hbefore, ?_⟩
  rw [copyAll_of_notMem h hlast, Function.update_self, hread]

theorem copyAll_of_clear (hclear : Clear moves) (h : copyAll moves o = some o') :
    ∀ m ∈ moves, o' m.2 = o m.1 := by
  intro m hm
  obtain ⟨before, rest, rfl⟩ := append_of_mem hm
  obtain ⟨-, hrest, hbefore⟩ := pairwise_append.mp hclear
  have hlast : m.2 ∉ rest.map Prod.snd := by
    intro hmem
    obtain ⟨b, hb, hsame⟩ := mem_map.mp hmem
    exact ((pairwise_cons.mp hrest).1 b hb).1 hsame.symm
  obtain ⟨between, hcopied, hread⟩ := copyAll_read h hlast
  rw [hread]
  refine copyAll_of_notMem hcopied fun hmem => ?_
  obtain ⟨a, ha, hsame⟩ := mem_map.mp hmem
  exact (hbefore a ha m mem_cons_self).2 hsame

variable (moves) in
theorem exists_copyAll (hfull : ∀ place, (o place).isSome) : ∃ o', copyAll moves o = some o' := by
  induction moves generalizing o with
  | nil => exact ⟨o, rfl⟩
  | cons m moves ih =>
    obtain ⟨content, hread⟩ := Option.isSome_iff_exists.mp (hfull m.1)
    have hfull' : ∀ place, (Function.update o m.2 (some content) place).isSome := by
      intro place
      by_cases hplace : place = m.2
      · subst hplace
        simp
      · simp [Function.update_of_ne hplace, hfull place]
    obtain ⟨o', h⟩ := ih hfull'
    refine ⟨o', ?_⟩
    rw [copyAll, hread, Option.bind_some, h]

/-- A store that has one thing at a place and another everywhere else. -/
def marked (x y : β) (place : κ) : Objects κ β := fun k => some (if k = place then x else y)

theorem marked_isSome (x y : β) (place k : κ) : (marked x y place k).isSome := rfl

theorem marked_ne {x y : β} (hxy : x ≠ y) {place k : κ} (h : k ≠ place) :
    marked x y place k ≠ marked x y place place := by
  simp [marked, h, hxy.symm]

variable (β) in
theorem eq_of_same [Nontrivial β] {j k : κ}
    (h : ∀ o : Objects κ β, (∀ place, (o place).isSome) → o j = o k) : j = k := by
  obtain ⟨x, y, hxy⟩ := exists_pair_ne β
  by_contra hne
  exact marked_ne hxy hne (h (marked x y k) (marked_isSome x y k))

/-- Copies from places apart that arrive whatever the store holds are clear of each other. -/
theorem clear_of_arrives [Nontrivial β] (hapart : (moves.map Prod.fst).Nodup)
    (h : ∀ o o' : Objects κ β, (∀ place, (o place).isSome) → copyAll moves o = some o' →
      ∀ m ∈ moves, o' m.2 = o m.1) : Clear moves := by
  have hsources : ∀ before m rest, moves = before ++ m :: rest → ∀ a ∈ before, a.1 ≠ m.1 := by
    rintro before m rest rfl a ha hsame
    rw [map_append, nodup_append] at hapart
    exact hapart.2.2 a.1 (mem_map_of_mem ha) m.1 (by simp) hsame
  have hplaces : (moves.map Prod.snd).Nodup := by
    rw [List.Nodup, pairwise_map]
    refine pairwise_of_split fun before m rest hmoves a ha hsame => ?_
    have hmem : a ∈ moves := hmoves ▸ mem_append_left _ ha
    refine hsources before m rest hmoves a ha (eq_of_same β fun o hfull => ?_)
    obtain ⟨o', ho⟩ := exists_copyAll moves hfull
    have hm : m ∈ moves := by simp [hmoves]
    rw [← h o o' hfull ho a hmem, ← h o o' hfull ho m hm, hsame]
  refine pairwise_of_split fun before m rest hmoves a ha => ⟨?_, fun hover => ?_⟩
  · rw [hmoves, map_append, nodup_append] at hplaces
    exact hplaces.2.2 a.2 (mem_map_of_mem ha) m.2 (by simp)
  · refine hsources before m rest hmoves a ha (eq_of_same β fun o hfull => ?_)
    obtain ⟨o', ho⟩ := exists_copyAll moves hfull
    have hm : m ∈ moves := by simp [hmoves]
    have ha' : a ∈ moves := hmoves ▸ mem_append_left _ ha
    rw [← h o o' hfull ho a ha', ← h o o' hfull ho m hm]
    subst hmoves
    rw [map_append, map_cons, nodup_append] at hplaces
    obtain ⟨-, hrest, hdisjoint⟩ := hplaces
    obtain ⟨between, hbefore, hread⟩ := copyAll_read ho (nodup_cons.mp hrest).1
    obtain ⟨between', hbefore', htail⟩ := copyAll_append ho
    cases hbefore.symm.trans hbefore'
    rw [hread, ← hover]
    refine copyAll_of_notMem htail fun hmem => ?_
    exact hdisjoint a.2 (mem_map_of_mem ha) a.2 hmem rfl

end DeltaSwamp.Copying
