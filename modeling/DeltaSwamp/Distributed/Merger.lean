import DeltaSwamp.Text
import Mathlib.Tactic.Common

/-!
# Merging fragments

`_Merger` of `distributed.py`: fragments of one schema concatenated as they arrive, for a commit
(`_fragments_arg`) or by a worker (`merge_fragments`).
-/

namespace DeltaSwamp.Distributed

open List

abbrev FragmentBytes := List UInt8

/-- Arrow's streams of a schema and batches of rows. -/
structure Ipc (S R : Type) where
  /-- `open_stream(fragment).schema`, where it opens -/
  schemaOf : FragmentBytes → Option S
  /-- the schema and the batches, where all of it decodes -/
  read : FragmentBytes → Option (S × List (List R))
  write : S → List (List R) → FragmentBytes
  combineChunks : List (List R) → List (List R)

/-- What is written is read back, and combining chunks keeps the rows. -/
structure Ipc.Lawful {S R : Type} (ipc : Ipc S R) : Prop where
  read_nil : ipc.read [] = none
  schemaOf_read : ∀ fragment schema batches,
    ipc.read fragment = some (schema, batches) → ipc.schemaOf fragment = some schema
  read_write : ∀ schema batches, ∃ found,
    ipc.read (ipc.write schema batches) = some (schema, found) ∧ found.flatten = batches.flatten
  flatten_combineChunks : ∀ batches, (ipc.combineChunks batches).flatten = batches.flatten

/-- What a list of fragments may hold: bytes, or a value of another type. -/
inductive FragmentItem where
  | bytes (fragment : FragmentBytes)
  | other (typeName : Text)

/-- The argument: bytes alone, a value that is no list of fragments, or something to iterate. -/
inductive FragmentsArg where
  | bare
  | notList (typeName : Text)
  | items (items : List FragmentItem)

inductive FragmentError where
  | wrapSingle (what : Text)
  | notList (what typeName : Text)
  | notBytes (index : Nat) (typeName : Text)
  | notFragment (index : Nat)
  /-- Written for a different table or layout than the first. -/
  | otherTable (index : Nat)
  /-- `_NotMergeable` -/
  | notMergeable
  deriving DecidableEq

/-- The checks of `_checked_fragments` before the first item. -/
def checkedItems (what : Text) : FragmentsArg → Except FragmentError (List FragmentItem)
  | .bare => .error (.wrapSingle what)
  | .notList typeName => .error (.notList what typeName)
  | .items items => .ok items

/-- `COMBINE_EVERY` -/
def combineEvery : Nat := 512

/-- `ROWS` -/
def mergedRows : Nat := 250000

/-- The pending batches, the schema they are of, and their rows. -/
structure Merger (S R : Type) where
  schema : Option S
  batches : List (List R)
  rows : Nat

namespace Merger

section
variable {S R : Type} [DecidableEq S] (ipc : Ipc S R)

def start : Merger S R := ⟨none, [], 0⟩

/-- `_combined` -/
def combined (m : Merger S R) : List (List R) :=
  if m.batches.length ≤ 1 then m.batches else ipc.combineChunks m.batches

def flush (m : Merger S R) : List FragmentBytes × Merger S R :=
  match m.schema with
  | none => ([], m)
  | some schema => ([ipc.write schema (m.combined ipc)], start)

/-- The batches of a fragment joined to those pending. -/
def take (m : Merger S R) (schema : S) (batches : List (List R)) : Merger S R :=
  let held := m.batches ++ batches.filter fun batch => batch ≠ []
  let rows := m.rows + (batches.map List.length).sum
  let m : Merger S R := ⟨some schema, held, rows⟩
  if combineEvery ≤ held.length then { m with batches := m.combined ipc } else m

/-- `add`: the merged fragments that are complete because of one, and nothing where it does not
decode. -/
def add (limit : Nat) (m : Merger S R) (fragment : FragmentBytes) :
    Option (List FragmentBytes × Merger S R) :=
  match ipc.read fragment with
  | none => none
  | some (schema, batches) =>
    let (done, m) := if m.schema.any (· ≠ schema) then m.flush ipc else ([], m)
    let m := m.take ipc schema batches
    if limit ≤ m.rows then
      let (merged, m) := m.flush ipc
      some (done ++ merged, m)
    else some (done, m)

end

end Merger

section
variable {S R : Type} [DecidableEq S] (ipc : Ipc S R)

/-- The loop of `_fragments_arg`. -/
def collectFragments (m : Merger S R) (out : List FragmentBytes) (index : Nat) :
    List FragmentItem → Except FragmentError (List FragmentBytes)
  | [] => .ok (out ++ (m.flush ipc).1)
  | .other typeName :: _ => .error (.notBytes index typeName)
  | .bytes fragment :: rest =>
    if fragment = [] then collectFragments m out (index + 1) rest
    else
      match m.add ipc mergedRows fragment with
      | none =>
        let (flushed, m) := m.flush ipc
        collectFragments m (out ++ flushed ++ [fragment]) (index + 1) rest
      | some (merged, m) => collectFragments m (out ++ merged) (index + 1) rest

/-- `_fragments_arg` -/
def fragmentsArg (fragments : FragmentsArg) : Except FragmentError (List FragmentBytes) :=
  match checkedItems "commit".toList fragments with
  | .error e => .error e
  | .ok items => collectFragments ipc .start [] 0 items

/-- The loop of `merge_fragments`; what `add` returns is dropped. -/
def mergeItems (m : Merger S R) (index : Nat) :
    List FragmentItem → Except FragmentError FragmentBytes
  | [] => .ok ((m.flush ipc).1.headD [])
  | .other typeName :: _ => .error (.notBytes index typeName)
  | .bytes fragment :: rest =>
    if fragment = [] then mergeItems m (index + 1) rest
    else
      match ipc.schemaOf fragment with
      | none => .error (.notFragment index)
      | some schema =>
        if m.schema.any (· ≠ schema) then .error (.otherTable index)
        else
          match m.add ipc (2 ^ 62) fragment with
          | none => .error .notMergeable
          | some (_, m) => mergeItems m (index + 1) rest

/-- `merge_fragments` -/
def mergeFragments (fragments : FragmentsArg) : Except FragmentError FragmentBytes :=
  match checkedItems "merge_fragments".toList fragments with
  | .error e => .error e
  | .ok items => mergeItems ipc .start 0 items

/-- A fragment that is not read, as it is, or the rows of one, each under its schema. -/
def contentsOf (fragment : FragmentBytes) : List (FragmentBytes ⊕ S × R) :=
  if fragment = [] then []
  else
    match ipc.read fragment with
    | none => [.inl fragment]
    | some (schema, batches) => batches.flatten.map fun row => .inr (schema, row)

def contents (fragments : List FragmentBytes) : List (FragmentBytes ⊕ S × R) :=
  fragments.flatMap (contentsOf ipc)

/-- The rows of a fragment that is read. -/
def rowCount (fragment : FragmentBytes) : Nat :=
  match ipc.read fragment with
  | none => 0
  | some (_, batches) => batches.flatten.length

/-- Every fragment that is not empty is read, and all have one schema. -/
def Mergeable (fragments : List FragmentBytes) : Prop :=
  (∀ f ∈ fragments, f ≠ [] → (ipc.read f).isSome) ∧
    ∀ f ∈ fragments, ∀ g ∈ fragments, f ≠ [] → g ≠ [] → ipc.schemaOf f = ipc.schemaOf g

/-- Why fragments are not merged into one. -/
inductive Refusal (fragments : List FragmentBytes) : FragmentError → Prop where
  | otherTable (index : Nat) (f g : FragmentBytes) (schema schema' : S) :
      fragments[index]? = some f → g ∈ fragments → f ≠ [] → g ≠ [] →
      ipc.schemaOf f = some schema → ipc.schemaOf g = some schema' → schema ≠ schema' →
      Refusal fragments (.otherTable index)
  | notFragment (index : Nat) (f : FragmentBytes) :
      fragments[index]? = some f → f ≠ [] → ipc.schemaOf f = none →
      Refusal fragments (.notFragment index)
  | notMergeable (f : FragmentBytes) :
      f ∈ fragments → f ≠ [] → ipc.read f = none → Refusal fragments .notMergeable

/-- The rows a merger holds, each under the schema. -/
def Merger.pending (m : Merger S R) : List (FragmentBytes ⊕ S × R) :=
  match m.schema with
  | none => []
  | some schema => m.batches.flatten.map fun row => .inr (schema, row)

end

section
variable {S R : Type} {ipc : Ipc S R} {m : Merger S R}

/-- Without a schema, nothing is held. -/
def Merger.Kept (m : Merger S R) : Prop := m.schema = none → m.batches = [] ∧ m.rows = 0

@[simp] theorem contents_nil : contents ipc [] = [] := rfl

@[simp] theorem contents_cons (f : FragmentBytes) (rest : List FragmentBytes) :
    contents ipc (f :: rest) = contentsOf ipc f ++ contents ipc rest := flatMap_cons

@[simp] theorem contents_append (fs gs : List FragmentBytes) :
    contents ipc (fs ++ gs) = contents ipc fs ++ contents ipc gs := flatMap_append

@[simp] theorem contentsOf_nil : contentsOf ipc ([] : FragmentBytes) = [] := rfl

theorem contentsOf_read {f : FragmentBytes} {schema : S} {batches : List (List R)}
    (laws : ipc.Lawful) (h : ipc.read f = some (schema, batches)) :
    contentsOf ipc f = batches.flatten.map fun row => .inr (schema, row) := by
  have hf : f ≠ [] := by
    rintro rfl
    rw [laws.read_nil] at h
    cases h
  rw [contentsOf, if_neg hf, h]

theorem contentsOf_write (laws : ipc.Lawful) (schema : S) (batches : List (List R)) :
    contentsOf ipc (ipc.write schema batches) =
      batches.flatten.map fun row => .inr (schema, row) := by
  obtain ⟨found, hread, hflatten⟩ := laws.read_write schema batches
  rw [contentsOf_read laws hread, hflatten]

theorem flatten_combined (laws : ipc.Lawful) (m : Merger S R) :
    (m.combined ipc).flatten = m.batches.flatten := by
  unfold Merger.combined
  split_ifs
  · rfl
  · exact laws.flatten_combineChunks m.batches

theorem contents_flush (laws : ipc.Lawful) (m : Merger S R) :
    contents ipc (m.flush ipc).1 = m.pending := by
  unfold Merger.flush Merger.pending
  cases m.schema with
  | none => rfl
  | some schema =>
    rw [contents_cons, contents_nil, append_nil, contentsOf_write laws,
      flatten_combined laws]

theorem kept_start : (Merger.start : Merger S R).Kept := fun _ => ⟨rfl, rfl⟩

theorem flush_snd (h : m.Kept) : (m.flush ipc).2 = .start := by
  obtain ⟨schema, batches, rows⟩ := m
  cases schema with
  | none =>
    obtain ⟨rfl, rfl⟩ := h rfl
    rfl
  | some schema => rfl

theorem schema_take (m : Merger S R) (schema : S) (batches : List (List R)) :
    (m.take ipc schema batches).schema = some schema := by
  unfold Merger.take
  dsimp only
  split_ifs <;> rfl

theorem kept_take (ipc : Ipc S R) (m : Merger S R) (schema : S) (batches : List (List R)) :
    (m.take ipc schema batches).Kept := by
  intro hnone
  rw [schema_take] at hnone
  cases hnone

theorem rows_take (m : Merger S R) (schema : S) (batches : List (List R)) :
    (m.take ipc schema batches).rows = m.rows + batches.flatten.length := by
  unfold Merger.take
  dsimp only
  rw [length_flatten]
  split_ifs <;> rfl

theorem flatten_take (laws : ipc.Lawful) (m : Merger S R) (schema : S) (batches : List (List R)) :
    (m.take ipc schema batches).batches.flatten = m.batches.flatten ++ batches.flatten := by
  have hheld : (m.batches ++ batches.filter fun batch => batch ≠ []).flatten =
      m.batches.flatten ++ batches.flatten := by
    rw [flatten_append, flatten_filter_ne_nil]
  unfold Merger.take
  dsimp only
  split_ifs
  · rw [flatten_combined laws]
    exact hheld
  · exact hheld

end

section
variable {S R : Type} [DecidableEq S] {ipc : Ipc S R} {m m' : Merger S R}

variable {schema : S}

theorem pending_take (laws : ipc.Lawful) (h : m.Kept) (hschema : m.schema.any (· ≠ schema) = false)
    (batches : List (List R)) :
    (m.take ipc schema batches).pending =
      m.pending ++ batches.flatten.map fun row => .inr (schema, row) := by
  rw [Merger.pending, schema_take]
  dsimp only
  rw [flatten_take laws, map_append]
  congr 1
  unfold Merger.pending
  cases hm : m.schema with
  | none =>
    rw [(h hm).1]
    rfl
  | some held =>
    have hsame : held = schema := by simpa [hm] using hschema
    rw [hsame]

/-- The batches of a fragment taken, and all flushed where there are rows enough. -/
def Merger.fill (ipc : Ipc S R) (limit : Nat) (m : Merger S R) (schema : S)
    (batches : List (List R)) : List FragmentBytes × Merger S R :=
  if limit ≤ (m.take ipc schema batches).rows then (m.take ipc schema batches).flush ipc
  else ([], m.take ipc schema batches)

theorem contents_fill (laws : ipc.Lawful) (h : m.Kept) (schema : S)
    (hschema : m.schema.any (· ≠ schema) = false) (batches : List (List R)) (limit : Nat) :
    (m.fill ipc limit schema batches).2.Kept ∧
      contents ipc (m.fill ipc limit schema batches).1 ++
          (m.fill ipc limit schema batches).2.pending =
        m.pending ++ batches.flatten.map fun row => .inr (schema, row) := by
  have hpending := pending_take laws h hschema batches
  have hkept := kept_take ipc m schema batches
  unfold Merger.fill
  split_ifs with hlimit
  · rw [flush_snd hkept, contents_flush laws, hpending]
    exact ⟨kept_start, append_nil _⟩
  · exact ⟨hkept, hpending⟩

variable {fragment : FragmentBytes}

theorem add_eq (h : m.Kept) {batches : List (List R)}
    (hread : ipc.read fragment = some (schema, batches)) (limit : Nat) :
    m.add ipc limit fragment =
      if m.schema.any (· ≠ schema) then
        some ((m.flush ipc).1 ++ (Merger.fill ipc limit .start schema batches).1,
          (Merger.fill ipc limit .start schema batches).2)
      else some (m.fill ipc limit schema batches) := by
  unfold Merger.add Merger.fill
  rw [hread]
  dsimp only
  split_ifs with hchange <;> simp_all [flush_snd h]

variable {limit : Nat}

/-- What is complete because of a fragment, then what is pending, is what was pending and then
the fragment. -/
theorem contents_add (laws : ipc.Lawful) (h : m.Kept) {merged : List FragmentBytes}
    (hadd : m.add ipc limit fragment = some (merged, m')) :
    m'.Kept ∧ contents ipc merged ++ m'.pending = m.pending ++ contentsOf ipc fragment := by
  cases hread : ipc.read fragment with
  | none => simp [Merger.add, hread] at hadd
  | some found =>
    obtain ⟨schema, batches⟩ := found
    rw [add_eq h hread] at hadd
    rw [contentsOf_read laws hread]
    split_ifs at hadd with hchange
    · obtain ⟨hkept, hfill⟩ :=
        contents_fill laws kept_start schema rfl batches limit
      cases hadd
      rw [contents_append, contents_flush laws, append_assoc, hfill]
      exact ⟨hkept, rfl⟩
    · have hfill := contents_fill laws h schema (Bool.not_eq_true _ ▸ hchange) batches limit
      rw [Option.some.injEq] at hadd
      rw [hadd] at hfill
      exact hfill

theorem add_eq_none : m.add ipc limit fragment = none ↔ ipc.read fragment = none := by
  unfold Merger.add
  cases ipc.read fragment with
  | none => simp
  | some found =>
    dsimp only
    split_ifs <;> simp

theorem collectFragments_contents (laws : ipc.Lawful) (h : m.Kept) (out : List FragmentBytes)
    (index : Nat) (fragments : List FragmentBytes) :
    ∃ result, collectFragments ipc m out index (fragments.map .bytes) = .ok result ∧
      contents ipc result = contents ipc out ++ m.pending ++ contents ipc fragments := by
  induction fragments generalizing m out index with
  | nil =>
    refine ⟨_, rfl, ?_⟩
    rw [contents_append, contents_flush laws, contents_nil, append_nil]
  | cons fragment rest ih =>
    rw [map_cons, collectFragments, contents_cons]
    split_ifs with hempty
    · obtain ⟨result, hresult, hcontents⟩ := ih h out (index + 1)
      exact ⟨result, hresult, by rw [hcontents, hempty, contentsOf_nil, nil_append]⟩
    · cases hadd : m.add ipc mergedRows fragment with
      | none =>
        have hread := add_eq_none.mp hadd
        obtain ⟨result, hresult, hcontents⟩ := ih (m := (m.flush ipc).2)
          (by rw [flush_snd h]; exact kept_start) (out ++ (m.flush ipc).1 ++ [fragment])
          (index + 1)
        refine ⟨result, hresult, ?_⟩
        rw [hcontents, flush_snd h, contents_append, contents_append, contents_flush laws,
          contents_cons, contents_nil, append_nil]
        simp [Merger.pending, Merger.start]
      | some added =>
        obtain ⟨merged, m'⟩ := added
        obtain ⟨hkept, hadded⟩ := contents_add laws h hadd
        obtain ⟨result, hresult, hcontents⟩ := ih hkept (out ++ merged) (index + 1)
        refine ⟨result, hresult, ?_⟩
        rw [hcontents, contents_append, append_assoc (contents ipc out), hadded]
        simp only [append_assoc]

/-- What a merger of `merge_fragments` holds after the fragments `before`. -/
structure Merged (ipc : Ipc S R) (before : List FragmentBytes) (m : Merger S R) : Prop where
  kept : m.Kept
  pending : m.pending = contents ipc before
  rows : m.rows = (before.map (rowCount ipc)).sum
  read : ∀ f ∈ before, f ≠ [] → (ipc.read f).isSome ∧ ipc.schemaOf f = m.schema
  schema : ∀ schema, m.schema = some schema → ∃ f ∈ before, f ≠ [] ∧ ipc.schemaOf f = some schema

omit [DecidableEq S] in
theorem merged_start : Merged ipc [] .start where
  kept := kept_start
  pending := rfl
  rows := rfl
  read := by simp
  schema := by simp [Merger.start]

variable {before : List FragmentBytes}

omit [DecidableEq S] in
theorem Merged.skip (laws : ipc.Lawful) (h : Merged ipc before m) :
    Merged ipc (before ++ [[]]) m where
  kept := h.kept
  pending := by simp [h.pending]
  rows := by simp [h.rows, rowCount, laws.read_nil]
  read := by
    intro f hf hne
    apply h.read f _ hne
    simpa [hne] using hf
  schema := by
    intro schema hschema
    obtain ⟨f, hf, hne⟩ := h.schema schema hschema
    exact ⟨f, by simp [hf], hne⟩

/-- A fragment of the same schema is held with the others, unless there are too many rows. -/
theorem Merged.add (laws : ipc.Lawful) (h : Merged ipc before m) {batches : List (List R)}
    (hne : fragment ≠ []) (hread : ipc.read fragment = some (schema, batches))
    (hschema : m.schema.any (· ≠ schema) = false)
    (hrows : ((before ++ [fragment]).map (rowCount ipc)).sum < limit) :
    ∃ m', m.add ipc limit fragment = some ([], m') ∧ Merged ipc (before ++ [fragment]) m' := by
  have hcount : (m.take ipc schema batches).rows =
      ((before ++ [fragment]).map (rowCount ipc)).sum := by
    simp [rows_take, h.rows, rowCount, hread]
  refine ⟨m.take ipc schema batches, ?_, kept_take ipc m schema batches, ?_, hcount, ?_, ?_⟩
  · rw [add_eq h.kept hread, if_neg (Bool.not_eq_true _ ▸ hschema), Merger.fill,
      if_neg (by omega)]
  · rw [pending_take laws h.kept hschema, contents_append, h.pending, contents_cons,
      contentsOf_read laws hread, contents_nil, append_nil]
  · intro f hf hfne
    rw [schema_take]
    rcases mem_append.mp hf with hbefore | hlast
    · obtain ⟨hsome, hsame⟩ := h.read f hbefore hfne
      refine ⟨hsome, hsame.trans ?_⟩
      obtain ⟨⟨schema', batches'⟩, hread'⟩ := Option.isSome_iff_exists.mp hsome
      have hschema' := laws.schemaOf_read _ _ _ hread'
      rw [hsame] at hschema'
      rw [hschema'] at hschema ⊢
      simpa using hschema
    · rw [mem_singleton.mp hlast]
      exact ⟨by simp [hread], laws.schemaOf_read _ _ _ hread⟩
  · intro schema' h'
    rw [schema_take] at h'
    cases h'
    exact ⟨fragment, by simp, hne, laws.schemaOf_read _ _ _ hread⟩

omit [DecidableEq S] in
theorem Merged.mergeable (h : Merged ipc before m) : Mergeable ipc before :=
  ⟨fun f hf hne => (h.read f hf hne).1,
    fun f hf g hg hfne hgne => (h.read f hf hfne).2.trans (h.read g hg hgne).2.symm⟩

omit [DecidableEq S] in
theorem Merged.schema_none (laws : ipc.Lawful) (h : Merged ipc before m) :
    m.schema = none ↔ ∀ f ∈ before, f = [] := by
  constructor
  · intro hnone f hf
    by_contra hne
    obtain ⟨hsome, hsame⟩ := h.read f hf hne
    obtain ⟨⟨schema, batches⟩, hread⟩ := Option.isSome_iff_exists.mp hsome
    have hschema := laws.schemaOf_read _ _ _ hread
    rw [hsame, hnone] at hschema
    cases hschema
  · intro hall
    cases hm : m.schema with
    | none => rfl
    | some schema =>
      obtain ⟨f, hf, hne, -⟩ := h.schema schema hm
      exact absurd (hall f hf) hne

omit [DecidableEq S] in
theorem Merged.flush (laws : ipc.Lawful) (h : Merged ipc before m) :
    contents ipc [(m.flush ipc).1.headD []] = contents ipc before ∧
      ((m.flush ipc).1.headD [] = [] ↔ ∀ f ∈ before, f = []) := by
  have hflush := contents_flush laws m
  rw [h.pending] at hflush
  rw [← h.schema_none laws, ← hflush]
  unfold Merger.flush
  cases hm : m.schema with
  | none => simp
  | some schema =>
    refine ⟨rfl, ?_⟩
    simp only [headD_cons, reduceCtorEq, iff_false]
    intro hwrite
    obtain ⟨found, hread, -⟩ := laws.read_write schema (m.combined ipc)
    rw [hwrite, laws.read_nil] at hread
    cases hread

/-- The rest is merged in order, or refused. -/
theorem mergeItems_merged (laws : ipc.Lawful) (h : Merged ipc before m) (rest : List FragmentBytes)
    (hrows : ((before ++ rest).map (rowCount ipc)).sum < 2 ^ 62) :
    (∃ merged, mergeItems ipc m before.length (rest.map .bytes) = .ok merged ∧
        Mergeable ipc (before ++ rest) ∧ contents ipc [merged] = contents ipc (before ++ rest) ∧
        (merged = [] ↔ ∀ f ∈ before ++ rest, f = [])) ∨
      ∃ e, mergeItems ipc m before.length (rest.map .bytes) = .error e ∧
        Refusal ipc (before ++ rest) e := by
  induction rest generalizing m before with
  | nil =>
    rw [append_nil]
    exact Or.inl ⟨_, rfl, h.mergeable, h.flush laws⟩
  | cons fragment rest ih =>
    have happend : before ++ fragment :: rest = before ++ [fragment] ++ rest := by simp
    have hlength : before.length + 1 = (before ++ [fragment]).length := by simp
    have hat : (before ++ fragment :: rest)[before.length]? = some fragment := by simp
    have hmem : fragment ∈ before ++ fragment :: rest := by simp
    rw [map_cons, mergeItems]
    split_ifs with hempty
    · rw [hlength, happend]
      rw [happend] at hrows
      subst hempty
      exact ih (h.skip laws) hrows
    · cases hschemaOf : ipc.schemaOf fragment with
      | none => exact Or.inr ⟨_, rfl, .notFragment _ fragment hat hempty hschemaOf⟩
      | some schema =>
        dsimp only
        split_ifs with hchange
        · obtain ⟨schema', hm, hne⟩ := (Option.any_eq_true _ _).mp hchange
          obtain ⟨g, hg, hgne, hgschema⟩ := h.schema schema' hm
          refine Or.inr ⟨_, rfl, .otherTable _ fragment g schema schema' hat ?_ hempty hgne
            hschemaOf hgschema ?_⟩
          · exact mem_append_left _ hg
          · have hchanged : schema' ≠ schema := by simpa using hne
            exact hchanged.symm
        · cases hread : ipc.read fragment with
          | none =>
            rw [add_eq_none.mpr hread]
            exact Or.inr ⟨_, rfl, .notMergeable fragment hmem hempty hread⟩
          | some found =>
            obtain ⟨schema', batches⟩ := found
            have hsame : schema' = schema := by
              have := laws.schemaOf_read _ _ _ hread
              rw [hschemaOf] at this
              exact (Option.some.inj this).symm
            subst hsame
            rw [happend] at hrows
            have hlt : ((before ++ [fragment]).map (rowCount ipc)).sum < 2 ^ 62 := by
              rw [map_append, sum_append] at hrows
              omega
            obtain ⟨m', hadd, hm'⟩ := h.add laws hempty hread
              (Bool.not_eq_true _ ▸ hchange) hlt
            rw [hadd, hlength, happend]
            exact ih hm' hrows

/-- The fragments to commit describe what the given ones do, in order; those merged into one
describe it too, or are refused for a reason. -/
theorem merged_conserve (ipc : Ipc S R) (laws : ipc.Lawful) (fragments : List FragmentBytes) :
    (∃ result, fragmentsArg ipc (.items (fragments.map .bytes)) = .ok result ∧
        contents ipc result = contents ipc fragments) ∧
      ((fragments.map (rowCount ipc)).sum < 2 ^ 62 →
        (∃ merged, mergeFragments ipc (.items (fragments.map .bytes)) = .ok merged ∧
            Mergeable ipc fragments ∧ contents ipc [merged] = contents ipc fragments ∧
            (merged = [] ↔ ∀ f ∈ fragments, f = [])) ∨
          ∃ e, mergeFragments ipc (.items (fragments.map .bytes)) = .error e ∧
            Refusal ipc fragments e) := by
  constructor
  · exact collectFragments_contents laws kept_start [] 0 fragments
  · intro hrows
    exact mergeItems_merged laws merged_start fragments hrows

end

/-- Streams of a tag, a schema of one byte and rows of one byte. -/
def plainIpc : Ipc UInt8 UInt8 where
  schemaOf
    | 0 :: schema :: _ => some schema
    | _ => none
  read
    | 0 :: schema :: rows => some (schema, [rows])
    | _ => none
  write schema batches := 0 :: schema :: batches.flatten
  combineChunks batches := [batches.flatten]

theorem plainIpc_lawful : plainIpc.Lawful where
  read_nil := rfl
  schemaOf_read fragment schema batches h := by
    simp only [plainIpc] at h ⊢
    split at h
    · cases h
      rfl
    · cases h
  read_write schema batches := ⟨[batches.flatten], rfl, by simp⟩
  flatten_combineChunks batches := by simp [plainIpc]

theorem merged_conserve_plain :
    (∃ result, fragmentsArg plainIpc
        (.items ([[0, 5, 1, 2], [], [9], [0, 5, 3], [0, 6, 4]].map .bytes)) = .ok result ∧
        contents plainIpc result =
          [.inr (5, 1), .inr (5, 2), .inl [9], .inr (5, 3), .inr (6, 4)]) ∧
      contents plainIpc [[0, 5, 1, 2, 3]] = contents plainIpc [[0, 5, 1, 2], [], [0, 5, 3]] := by
  constructor
  · exact (merged_conserve plainIpc plainIpc_lawful [[0, 5, 1, 2], [], [9], [0, 5, 3], [0, 6, 4]]).1
  · rcases (merged_conserve plainIpc plainIpc_lawful [[0, 5, 1, 2], [], [0, 5, 3]]).2
      (by decide) with ⟨merged, hmerged, -, hcontents, -⟩ | ⟨e, herror, -⟩
    · cases hmerged
      exact hcontents
    · cases herror

/-- One fragment that is none is refused, though no schema changes. -/
theorem undecodable_refused :
    mergeFragments plainIpc (.items [.bytes [9]]) = .error (.notFragment 0) ∧
      plainIpc.read [9] = none := ⟨rfl, rfl⟩

end DeltaSwamp.Distributed
