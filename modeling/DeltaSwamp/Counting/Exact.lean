import DeltaSwamp.Counting.Count

/-!
# When the count is the scan's

The rows counted from the log against those a scan returns, over any skipping of files
that loses no row: which predicates and which partition strings set them apart.
-/

namespace DeltaSwamp.Counting

open List

open Predicate (Env Row Schema Node Builder.build columnsOf truth)
open Result (bind_eq_ok_iff)

section
variable {env : Env} {strings : PartitionStrings} {layout : Layout env} {predicate : Option Node}

/-- The rows a predicate is TRUE of. -/
def selected (node : Node) (row : Row env.lower layout.schema) : Bool :=
  truth env layout.schema row node = some true

theorem kept_eq {node : Node} {e : Predicate.Expr}
    (h : Builder.build env layout.schema node = .ok e) :
    (fun row : Row env.lower layout.schema => decide (e.eval env row.get = some true)) =
      selected node := by
  funext row
  rw [selected, Predicate.Builder.build_eval row h]

theorem skipped_rows {node : Node} (skipping : Skipping strings layout (some node))
    (files : List (DataFile strings layout)) :
    ((files.filter skipping.keeps).flatMap DataFile.rows).filter (selected node) =
      (files.flatMap DataFile.rows).filter (selected node) := by
  induction files with
  | nil => rfl
  | cons file files ih =>
    cases hkeeps : skipping.keeps file with
    | true => simp [filter_cons_of_pos hkeeps, ih]
    | false =>
      have hnone : file.rows.filter (selected node) = [] := by
        rw [filter_eq_nil_iff]
        intro row hrow hselected
        apply skipping.sound file hkeeps row hrow
        rintro _ ⟨⟩
        simpa [selected] using hselected
      rw [filter_cons_of_neg (by simp [hkeeps]), ih, flatMap_cons, filter_append,
        hnone, nil_append]

theorem skipped_all (skipping : Skipping strings layout none)
    (files : List (DataFile strings layout)) :
    (files.filter skipping.keeps).flatMap DataFile.rows = files.flatMap DataFile.rows := by
  induction files with
  | nil => rfl
  | cons file files ih =>
    cases hkeeps : skipping.keeps file with
    | true => simp [filter_cons_of_pos hkeeps, ih]
    | false =>
      have hnone : file.rows = [] := by
        rw [eq_nil_iff_forall_not_mem]
        intro row hrow
        apply skipping.sound file hkeeps row hrow
        rintro _ ⟨⟩
      rw [filter_cons_of_neg (by simp [hkeeps]), ih, flatMap_cons, hnone,
        nil_append]

/-- The live rows of some files. -/
def liveOf (files : List (DataFile strings layout)) : ℕ := (files.map fun f => f.rows.length).sum

variable {files : List (DataFile strings layout)}

theorem sum_live (h : ∀ file ∈ files, file.numRecords.isSome = true) :
    (files.map DataFile.live).sum = liveOf files := by
  unfold liveOf
  induction files with
  | nil => rfl
  | cons file files ih =>
    rw [map_cons, sum_cons, map_cons, sum_cons,
      ih fun other hother => h other (mem_cons_of_mem _ hother),
      DataFile.live_eq (h file mem_cons_self), Nat.cast_add]

/-- Where two tests differ on some files only, they pass as many live rows just where those of the
files only the one passes are as many as those of the files only the other does. -/
theorem liveOf_eq_iff {p q m : DataFile strings layout → Bool}
    (h : ∀ file ∈ files, m file = false → file.rows = [] ∨ p file = q file) :
    liveOf (files.filter p) = liveOf (files.filter q) ↔
      liveOf (files.filter fun file => m file && (p file && !q file)) =
        liveOf (files.filter fun file => m file && (q file && !p file)) := by
  have hsum : liveOf (files.filter p) +
        liveOf (files.filter fun file => m file && (q file && !p file)) =
      liveOf (files.filter q) +
        liveOf (files.filter fun file => m file && (p file && !q file)) := by
    induction files with
    | nil => rfl
    | cons file files ih =>
      have hmore := ih fun other hother => h other (mem_cons_of_mem _ hother)
      have hfile := h file mem_cons_self
      unfold liveOf at hmore ⊢
      simp only [filter_cons]
      cases hm : m file with
      | true => cases hp : p file <;> cases hq : q file <;> simp <;> omega
      | false =>
        obtain hnil | hsame := hfile hm
        · cases hp : p file <;> cases hq : q file <;> simp [hnil] <;> omega
        · cases hp : p file <;> simp [← hsame, hp] <;> omega
  omega

def Builds (env : Env) (schema : Schema) (node : Node) : Prop :=
  ∃ e, Builder.build env schema node = .ok e

/-- A row of NULLs. -/
def nullRow (layout : Layout env) : Row env.lower layout.schema := ⟨fun _ => none, by simp⟩

/-- Whether the predicate is TRUE of a file's row in the table of files. -/
def countedTrue (node : Node) (partitions : Partitions) (file : DataFile strings layout) : Bool :=
  truth env (fileSchema strings layout partitions) (fileRow partitions file) node = some true

/-- Whether the predicate is TRUE of the rows of a file. -/
def scannedTrue (node : Node) (file : DataFile strings layout) : Bool :=
  file.rows.any (selected node)

def misread (partitions : Partitions) (file : DataFile strings layout) : Bool :=
  collides env partitions || blank partitions file

/-- Of a predicate that names no column: it is TRUE, or there is nothing to count. -/
def ConstantCounts (node : Node) (listed : List (DataFile strings layout)) : Prop :=
  Builds env layout.schema node ∧
    (selected node (nullRow layout) = true ∨ ∀ file ∈ listed, file.rows = [])

/-- Of a predicate on partition columns: of the files with a string that is read in two ways, those
wrongly counted have as many live rows as those wrongly left out. -/
def PartitionsCount (node : Node) (partitions : Partitions)
    (listed : List (DataFile strings layout)) : Prop :=
  (collides env partitions = true → Builds env layout.schema node) ∧
    liveOf (listed.filter fun file => misread partitions file &&
        (countedTrue node partitions file && !scannedTrue node file)) =
      liveOf (listed.filter fun file => misread partitions file &&
        (scannedTrue node file && !countedTrue node partitions file))

/-- Where the log can be counted by the predicate, it counts what a scan does. -/
def Counts (listed : List (DataFile strings layout)) (predicate : Option Node) : Prop :=
  ∀ node ∈ predicate, ∀ partitions, layout.partitions node = some partitions →
    (∀ file ∈ listed, file.numRecords.isSome = true) →
      if partitions.entries = [] then ConstantCounts node listed
      else castable partitions listed = true →
        Builds env (fileSchema strings layout partitions) node →
        PartitionsCount node partitions listed

variable {node : Node} {listed : List (DataFile strings layout)}

variable {partitions : Partitions}

/-- A file is kept by the filter over the table of files just where the predicate is TRUE of it. -/
theorem counted_eq {e : Predicate.Expr}
    (h : Builder.build env (fileSchema strings layout partitions) node = .ok e) :
    (fun file : DataFile strings layout =>
      decide (e.eval env (fileRow partitions file).get = some true)) =
        countedTrue node partitions := by
  funext file
  rw [countedTrue, Predicate.Builder.build_eval (fileRow partitions file) h]

theorem metadataCount_some {n : ℤ} : metadataCount listed (some node) = .ok (some n) ↔
    ∃ partitions, layout.partitions node = some partitions ∧
      (∀ file ∈ listed, file.numRecords.isSome = true) ∧
        (partitions.entries = [] ∧ n = liveOf listed ∨
          partitions.entries ≠ [] ∧ castable partitions listed = true ∧
            Builds env (fileSchema strings layout partitions) node ∧
              n = liveOf (listed.filter (countedTrue node partitions))) := by
  unfold metadataCount
  dsimp only
  cases hpartitions : layout.partitions node with
  | none => simp
  | some partitions =>
    simp only [Option.some.injEq, exists_eq_left']
    by_cases hrecorded : ∀ file ∈ listed, file.numRecords.isSome = true
    · rw [if_pos (all_eq_true.mpr hrecorded)]
      by_cases hempty : partitions.entries = []
      · rw [if_pos hempty, sum_live hrecorded, Except.ok.injEq, Option.some.injEq]
        constructor
        · rintro rfl
          exact ⟨hrecorded, Or.inl ⟨hempty, rfl⟩⟩
        · rintro ⟨-, ⟨-, rfl⟩ | ⟨hne, -⟩⟩
          · rfl
          · exact absurd hempty hne
      · rw [if_neg hempty]
        by_cases hcast : castable partitions listed = true
        · rw [if_pos hcast]
          cases hbuild : Builder.build env (fileSchema strings layout partitions) node with
          | error e => simp [hempty, Builds, hbuild, bind, Except.bind]
          | ok e =>
            have hkept : ∀ file ∈ listed.filter (countedTrue node partitions),
                file.numRecords.isSome = true :=
              fun file hfile => hrecorded file (mem_of_mem_filter hfile)
            rw [Result.ok_bind, counted_eq hbuild, sum_live hkept, Result.pure_eq_ok_iff,
              Option.some.injEq]
            constructor
            · rintro rfl
              exact ⟨hrecorded, Or.inr ⟨hempty, hcast, ⟨e, hbuild⟩, rfl⟩⟩
            · rintro ⟨-, ⟨hnil, -⟩ | ⟨-, -, -, rfl⟩⟩
              · exact absurd hnil hempty
              · rfl
        · simp [hempty, hcast]
    · rw [if_neg fun hall => hrecorded (all_eq_true.mp hall)]
      simp [hrecorded]

/-- What a scan returns, whatever files sound skipping leaves it, is what the predicate selects in
those that it leaves another. -/
theorem scan_some (counting scanning : Skipping strings layout (some node)) (m : ℕ) :
    scan (files.filter scanning.keeps) (some node) = .ok m ↔
      Builds env layout.schema node ∧
        m = (((files.filter counting.keeps).flatMap DataFile.rows).filter
          (selected node)).length := by
  rw [skipped_rows counting, ← skipped_rows scanning]
  unfold scan
  dsimp only
  cases hbuild : Builder.build env layout.schema node with
  | error e => simp [Builds, hbuild, bind, Except.bind]
  | ok e =>
    rw [Result.ok_bind, kept_eq hbuild]
    rw [Result.pure_eq_ok_iff]
    constructor
    · rintro rfl
      exact ⟨⟨e, hbuild⟩, rfl⟩
    · rintro ⟨-, rfl⟩
      rfl

theorem constant_selected (hnone : columnsOf node = []) (row row' : Row env.lower layout.schema) :
    selected node row = selected node row' := by
  have htruth : truth env layout.schema row node = truth env layout.schema row' node := by
    apply Predicate.truth_congr
    rw [hnone]
    simp
  rw [selected, selected, htruth]

theorem length_rows (listed : List (DataFile strings layout)) :
    (listed.flatMap DataFile.rows).length = liveOf listed := by
  rw [length_flatMap]
  rfl

theorem constant_iff (hnone : columnsOf node = []) :
    liveOf listed = ((listed.flatMap DataFile.rows).filter (selected node)).length ↔
      selected node (nullRow layout) = true ∨ ∀ file ∈ listed, file.rows = [] := by
  have hsame : ∀ row : Row env.lower layout.schema,
      selected node row = selected node (nullRow layout) :=
    fun row => constant_selected hnone row _
  rw [← length_rows]
  cases hnull : selected node (nullRow layout) with
  | true =>
    have hall : (listed.flatMap DataFile.rows).filter (selected node) =
        listed.flatMap DataFile.rows :=
      filter_eq_self.mpr fun row _ => (hsame row).trans hnull
    simp [hall]
  | false =>
    have hfilter : (listed.flatMap DataFile.rows).filter (selected node) = [] :=
      filter_eq_nil_iff.mpr fun row _ => by simp [hsame row, hnull]
    rw [hfilter, length_nil, length_eq_zero_iff, flatMap_eq_nil_iff]
    simp

theorem scanned_rows (hnamed : NamedBy layout node partitions) :
    ((listed.flatMap DataFile.rows).filter (selected node)).length =
      liveOf (listed.filter (scannedTrue node)) := by
  induction listed with
  | nil => rfl
  | cons file listed ih =>
    have hsame : ∀ row ∈ file.rows, selected node row = scannedTrue node file := by
      intro row hrow
      rw [Bool.eq_iff_iff, scannedTrue, any_eq_true]
      constructor
      · exact fun h => ⟨row, hrow, h⟩
      · rintro ⟨row', hrow', h⟩
        rwa [selected, rows_truth hnamed hrow hrow', ← selected]
    rw [flatMap_cons, filter_append, length_append, ih]
    cases hscanned : scannedTrue node file with
    | true =>
      have hall : file.rows.filter (selected node) = file.rows :=
        filter_eq_self.mpr fun row hrow => (hsame row hrow).trans hscanned
      rw [hall, filter_cons_of_pos hscanned]
      rfl
    | false =>
      have hnone : file.rows.filter (selected node) = [] :=
        filter_eq_nil_iff.mpr fun row hrow => by simp [hsame row hrow, hscanned]
      rw [hnone, filter_cons_of_neg (by simp [hscanned]), length_nil, Nat.zero_add]

/-- A file with no string that is read in two ways is counted just where its rows are scanned. -/
theorem judged_alike (hnamed : NamedBy layout node partitions)
    (hcast : castable partitions listed = true) {file : DataFile strings layout}
    (hfile : file ∈ listed) (hread : misread partitions file = false) :
    file.rows = [] ∨ countedTrue node partitions file = scannedTrue node file := by
  rw [misread, Bool.or_eq_false_iff] at hread
  obtain ⟨hclear, hblank⟩ := hread
  cases hrows : file.rows with
  | nil => exact Or.inl rfl
  | cons row rows =>
    have hrow : row ∈ file.rows := by simp [hrows]
    have hstrings : ∀ entry ∈ partitions.entries, ∀ s ∈ file.raw entry.1,
        (strings.cast entry.2 s).isSome = true := by
      intro entry hentry s hs
      have hentries := all_eq_true.mp (all_eq_true.mp hcast file hfile) entry hentry
      exact (Option.all_eq_true _ _).mp hentries s hs
    have htruth : truth env (fileSchema strings layout partitions) (fileRow partitions file) node =
        truth env layout.schema row node :=
      Predicate.truth_congr fun c hc => fileRow_value hnamed hclear hblank hstrings hrow hc
    refine Or.inr ?_
    rw [Bool.eq_iff_iff, countedTrue, htruth, ← selected, scannedTrue, any_eq_true]
    constructor
    · exact fun h => ⟨row, hrow, h⟩
    · rintro ⟨row', hrow', h⟩
      rwa [selected, rows_truth hnamed hrow hrow', ← selected]

theorem named_iff (hnamed : NamedBy layout node partitions)
    (hcast : castable partitions listed = true)
    (hbuild : Builds env (fileSchema strings layout partitions) node) :
    (Builds env layout.schema node ∧ liveOf (listed.filter (countedTrue node partitions)) =
      ((listed.flatMap DataFile.rows).filter (selected node)).length) ↔
        PartitionsCount node partitions listed := by
  have hbuilds : Builds env layout.schema node ↔
      (collides env partitions = true → Builds env layout.schema node) := by
    constructor
    · exact fun h _ => h
    · intro h
      cases hclear : collides env partitions with
      | true => exact h hclear
      | false => rwa [Builds, fileSchema_build hnamed hclear] at hbuild
  rw [PartitionsCount, ← hbuilds, scanned_rows hnamed,
    liveOf_eq_iff fun file hfile hread => judged_alike hnamed hcast hfile hread]

/-- The count from the log, over the files that any sound skipping leaves, is absent or the number
of rows of a scan just where the log counts them. -/
theorem metadataCount_exact (layout : Layout env) (files : List (DataFile strings layout))
    (predicate : Option Node) (counting scanning : Skipping strings layout predicate) :
    (∀ n, metadataCount (files.filter counting.keeps) predicate = .ok (some n) →
      ∃ m : ℕ, scan (files.filter scanning.keeps) predicate = .ok m ∧ n = m) ↔
        Counts (files.filter counting.keeps) predicate := by
  cases predicate with
  | none =>
    refine ⟨fun _ _ hnode => (by cases hnode), fun _ n hn => ?_⟩
    refine ⟨_, rfl, ?_⟩
    unfold metadataCount at hn
    dsimp only at hn
    split_ifs at hn with hrecorded
    · cases hn
      rw [sum_live (all_eq_true.mp hrecorded), ← length_rows, skipped_all, skipped_all]
    · cases hn
  | some node =>
    simp only [metadataCount_some, scan_some counting scanning]
    constructor
    · rintro h _ ⟨⟩ partitions hpartitions hrecorded
      have hnamed := partitions_spec hpartitions
      split_ifs with hempty
      · obtain ⟨m, ⟨hbuild, rfl⟩, hn⟩ := h _ ⟨partitions, hpartitions, hrecorded,
          Or.inl ⟨hempty, rfl⟩⟩
        exact ⟨hbuild, (constant_iff (hnamed.empty hempty)).mp (by exact_mod_cast hn)⟩
      · intro hcast hbuild
        obtain ⟨m, ⟨hbuilds, rfl⟩, hn⟩ := h _ ⟨partitions, hpartitions, hrecorded,
          Or.inr ⟨hempty, hcast, hbuild, rfl⟩⟩
        exact (named_iff hnamed hcast hbuild).mp ⟨hbuilds, by exact_mod_cast hn⟩
    · rintro h n ⟨partitions, hpartitions, hrecorded, hcount⟩
      have hnamed := partitions_spec hpartitions
      have hcounts := h node rfl partitions hpartitions hrecorded
      obtain ⟨hempty, rfl⟩ | ⟨hempty, hcast, hbuild, rfl⟩ := hcount
      · rw [if_pos hempty] at hcounts
        exact ⟨_, ⟨hcounts.1, rfl⟩, by
          exact_mod_cast (constant_iff (hnamed.empty hempty)).mpr hcounts.2⟩
      · rw [if_neg hempty] at hcounts
        obtain ⟨hbuilds, hn⟩ := (named_iff hnamed hcast hbuild).mpr (hcounts hcast hbuild)
        exact ⟨_, ⟨hbuilds, rfl⟩, by exact_mod_cast hn⟩

end

/-- Strings of STRING columns only. -/
def textStrings : PartitionStrings where
  denote t s := if t = .text .string then some (.text s) else none
  cast t s := if t = .text .string then some (.text s) else none
  cast_typed := by
    intro t s v h
    split_ifs at h with ht
    cases h
    rw [ht]
    rfl
  cast_text _ := rfl
  cast_nil t _ ht := if_neg ht
  agree := by
    intro t s v w _ hv hw
    exact Option.some.inj (hv.symm.trans hw)

/-- A table of one column, not partitioned. -/
def plainLayout : Layout Predicate.Builder.asciiEnv where
  schema := [(['x'], .prim .int64)]
  mapped _ := none
  partitionColumns := []
  distinct := by simp
  known := by simp

/-- A file of one row. -/
def oneRow : DataFile textStrings plainLayout where
  numRecords := some 1
  deletionVector := none
  partitionValues := []
  rows := [nullRow plainLayout]
  hidden := 0
  recorded := by
    rintro _ ⟨⟩
    decide
  cardinality := rfl
  readable := by
    intro name hname
    cases hname
  valued := by
    intro row _ name hname
    cases hname

/-- `FALSE` names no column, so every row is counted. -/
theorem constant_counts_all : metadataCount [oneRow] (some (.leaf .false)) = .ok (some 1) ∧
    scan [oneRow] (some (.leaf .false)) = .ok 0 := by
  have hbuild : Builder.build Predicate.Builder.asciiEnv plainLayout.schema (.leaf .false) =
      .ok (.scalar (some false)) := by
    rw [Builder.build]
    rfl
  have hpartitions : plainLayout.partitions (.leaf .false) = some ⟨[], by simp⟩ := by
    rw [Layout.partitions, columnsOf]
    rfl
  refine ⟨?_, ?_⟩
  · rw [metadataCount, hpartitions]
    rfl
  · rw [scan, hbuild]
    rfl

end DeltaSwamp.Counting
