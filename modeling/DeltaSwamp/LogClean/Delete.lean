import DeltaSwamp.Text

/-!
# Carrying out a cleanup

`delete` of `logclean.rs` over `delete` of `vacuum.rs`: the keys of a plan go
to the store a batch at a time, the deletes of one batch run together, and the
first batch with a failure is the last.
-/

namespace DeltaSwamp.Vacuum

inductive Answer where
  | deleted
  | notFound
  | error (message : Text)
  deriving DecidableEq, Repr

/-- An object store as a delete sees it. The deletes of a batch are in flight
together and come back in any order. -/
structure Store where
  /-- `child`: whether the key is a location of the store. -/
  child : Text → Except Text Unit
  answer : Text → Answer
  arrival : List Text → List Text
  arrival_perm : ∀ keys, (arrival keys).Perm keys

/-- The keys deleted (or already gone), and the error of each that was not. -/
abbrev Deletion := List Text × List (Text × Text)

def Store.outcome (store : Store) (key : Text) : Except Text Unit := do
  store.child key
  match store.answer key with
  | .deleted | .notFound => .ok ()
  | .error message => .error message

def Store.fails (store : Store) (key : Text) : Bool := !(store.outcome key).isOk

def delete (store : Store) (keys : List Text) : Deletion :=
  let results := (store.arrival keys).map fun key => (key, store.outcome key)
  ((results.filterMap fun (key, outcome) => match outcome with
      | .ok () => some key
      | .error _ => none).insertionSort (· ≤ ·),
    results.filterMap fun (key, outcome) => match outcome with
      | .ok () => none
      | .error message => some (key, message))

section
variable (store : Store) (keys : List Text)

theorem mem_delete_fst {key : Text} :
    key ∈ (delete store keys).1 ↔ key ∈ keys ∧ store.fails key = false := by
  simp only [delete, List.mem_insertionSort, List.mem_filterMap, List.mem_map,
    (store.arrival_perm keys).mem_iff, Store.fails]
  constructor
  · rintro ⟨_, ⟨k, hk, rfl⟩, h⟩
    cases hout : store.outcome k with
    | error e => simp [hout] at h
    | ok u =>
      simp only [hout, Option.some.injEq] at h
      exact ⟨h ▸ hk, by simp [← h, hout, Except.isOk, Except.toBool]⟩
  · rintro ⟨hk, hok⟩
    refine ⟨_, ⟨key, hk, rfl⟩, ?_⟩
    cases hout : store.outcome key with
    | error e => simp [hout, Except.isOk, Except.toBool] at hok
    | ok u => simp

theorem delete_snd_eq_nil : (delete store keys).2 = [] ↔ ∀ key ∈ keys, store.fails key = false := by
  simp only [delete, List.filterMap_eq_nil_iff, List.mem_map, (store.arrival_perm keys).mem_iff,
    Store.fails]
  constructor
  · intro h key hkey
    have hnone := h (key, store.outcome key) ⟨key, hkey, rfl⟩
    cases hout : store.outcome key with
    | error e => simp [hout] at hnone
    | ok u => simp [Except.isOk, Except.toBool]
  · rintro h _ ⟨key, hkey, rfl⟩
    have hok := h key hkey
    cases hout : store.outcome key with
    | error e => simp [hout, Except.isOk, Except.toBool] at hok
    | ok u => simp

end

end DeltaSwamp.Vacuum

namespace DeltaSwamp.LogClean

open Vacuum (Store Deletion)

/-- How many deletes are in flight at once. -/
def batchSize : Nat := 32

/-- `chunks`: a list cut into pieces of `n`, the last one possibly shorter. -/
def chunks {α : Type} (n : Nat) : List α → List (List α)
  | [] => []
  | x :: xs => (x :: xs.take (n - 1)) :: chunks n (xs.drop (n - 1))
  termination_by xs => xs.length
  decreasing_by simp only [List.length_drop, List.length_cons]; omega

theorem flatten_chunks {α : Type} (n : Nat) (xs : List α) : (chunks n xs).flatten = xs := by
  induction xs using chunks.induct n with
  | case1 => simp [chunks]
  | case2 x xs ih =>
    rw [chunks, List.flatten_cons, ih, List.cons_append, List.take_append_drop]

def notAttempted (batches : List (List Text)) : List (Text × Text) :=
  batches.flatten.map fun key => (key, "not attempted: an older file failed first".toList)

/-- The loop over the batches, up to the first one with a failure. -/
def deleteBatches (store : Store) : List (List Text) → Deletion
  | [] => ([], [])
  | batch :: rest =>
    let d := Vacuum.delete store batch
    if d.2 ≠ [] then (d.1, d.2 ++ notAttempted rest)
    else
      let later := deleteBatches store rest
      (d.1 ++ later.1, later.2)

def delete (store : Store) (keys : List Text) : Deletion :=
  deleteBatches store (chunks batchSize keys)

/-- The batch in which the first failing key falls, if one fails. -/
def failingBatch (store : Store) (keys : List Text) : Option (List Text) :=
  (chunks batchSize keys).find? fun batch => batch.any store.fails

/-- What a deletion did: all of the keys up to some batch, of that batch the
keys that do not fail, and nothing after it. -/
theorem deleteBatches_eq (store : Store) (batches : List (List Text)) :
    ∃ done batch rest, batches.flatten = done ++ (batch ++ rest) ∧
      (∀ key ∈ done, store.fails key = false) ∧
      (∀ key, key ∈ (deleteBatches store batches).1 ↔
        key ∈ done ∨ key ∈ batch ∧ store.fails key = false) ∧
      (batches.find? (fun batch => batch.any store.fails) = some batch ∨
        batches.find? (fun batch => batch.any store.fails) = none ∧ batch = [] ∧ rest = []) := by
  induction batches with
  | nil => exact ⟨[], [], [], rfl, by simp, by simp [deleteBatches], .inr ⟨rfl, rfl, rfl⟩⟩
  | cons batch rest ih =>
    cases hfails : batch.any store.fails with
    | true =>
      refine ⟨[], batch, rest.flatten, rfl, by simp, fun key => ?_, .inl (by simp [hfails])⟩
      have hbad : (Vacuum.delete store batch).2 ≠ [] := by
        obtain ⟨key, hkey, hfail⟩ := List.any_eq_true.mp hfails
        intro hnil
        rw [(Vacuum.delete_snd_eq_nil store batch).mp hnil key hkey] at hfail
        cases hfail
      simp only [deleteBatches, if_pos hbad, Vacuum.mem_delete_fst]
      simp
    | false =>
      obtain ⟨done, batch', rest', heq, hdone, hmem, hfind⟩ := ih
      have hok : ∀ key ∈ batch, store.fails key = false := by
        simpa using hfails
      refine ⟨batch ++ done, batch', rest', by simp [heq], ?_, fun key => ?_, ?_⟩
      · intro key hkey
        rcases List.mem_append.mp hkey with hkey | hkey
        · exact hok key hkey
        · exact hdone key hkey
      · have hnil := (Vacuum.delete_snd_eq_nil store batch).mpr hok
        simp only [deleteBatches, hnil, ne_eq, not_true_eq_false, if_false, List.mem_append,
          Vacuum.mem_delete_fst, hmem, or_assoc]
        exact or_congr_left ⟨And.left, fun h => ⟨h, hok key h⟩⟩
      · rw [List.find?_cons_of_neg (by simp [hfails])]
        exact hfind

end DeltaSwamp.LogClean
