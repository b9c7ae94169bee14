import DeltaSwamp.Result

/-!
# Reading one data file

A file's Parquet batches, each row numbered by its place in the file, turned
logical and masked by the file's deletion vector batch by batch.
-/

namespace DeltaSwamp.Scan

open List

/-- A data file as the scan's metadata lists it. -/
structure ScanFile where
  path : String
  size : Int
  /-- The record count of its statistics. -/
  numRecords : Option Nat
  defaultRowCommitVersion : Option Int
  deriving DecidableEq

/-- What reads the files: the kernel's engine, over values `V` as stored and `L` as the scan's
schema has them. -/
structure Engine (V L ε : Type) where
  /-- The keep-mask of a file's deletion vector. -/
  selectionVector : ScanFile → Except ε (Option (List Bool))
  /-- A file's batches, of whatever sizes the Parquet reader chooses. -/
  readParquet : ScanFile → Except ε (List (Except ε (List V)))
  /-- Whether the physical-to-logical transform of a batch fails. -/
  transformError : ScanFile → List V → Option ε
  logical : ScanFile → V → L
  /-- A value's materialized row commit version. -/
  rowCommitVersion : V → Option Int
  internalError : String → ε
  generic : String → ε

/-- A row as a scan hands it on: with its file, where the scan tags rows, and its physical index. -/
structure Row (L : Type) where
  file : Option String
  index : Nat
  value : L
  commitVersion : Option Int
  deriving DecidableEq

/-- What a scan was asked for beside its files. -/
structure Options where
  tagPath : Bool
  commitVersions : Bool

variable {V L ε : Type}

/-- Batches whose rows carry their index in the file. -/
def numbered : Nat → List (Except ε (List V)) → List (Except ε (List (V × Nat)))
  | _, [] => []
  | start, .error e :: batches => .error e :: numbered start batches
  | start, .ok values :: batches =>
    .ok (values.zipIdx start) :: numbered (start + values.length) batches

/-- The file being read: its batches and the part of its mask not yet consumed. -/
structure OpenFile (V ε : Type) where
  file : ScanFile
  batches : List (Except ε (List (V × Nat)))
  selection : Option (List Bool)

def openFile (engine : Engine V L ε) (file : ScanFile) : Except ε (OpenFile V ε) := do
  let selection ← engine.selectionVector file
  let batches ← engine.readParquet file
  if file.numRecords.any (0 < ·) && batches.isEmpty then
    throw (engine.internalError ("ParquetHandler returned no data for file '" ++ file.path ++
      "' although its stats report rows"))
  pure ⟨file, numbered 0 batches, selection⟩

/-- Each row's commit version: the materialized one, else the file's default. -/
def takeCommitVersions (engine : Engine V L ε) (options : Options) (file : ScanFile)
    (physical : List (V × Nat)) : Except ε (List (Option Int)) :=
  if options.commitVersions then
    let materialized := physical.map fun row => engine.rowCommitVersion row.1
    if materialized.all Option.isSome then .ok materialized
    else
      match file.defaultRowCommitVersion with
      | some default => .ok (materialized.map fun version => some (version.getD default))
      | none => .error (engine.generic ("data file \"" ++ file.path ++ "\" has rows without a " ++
          "materialized row commit version and no defaultRowCommitVersion, so their commit " ++
          "versions are unknown"))
  else .ok (physical.map fun _ => none)

/-- The rows a mask keeps; rows past its end are kept. -/
def applySelection {α : Type} : List Bool → List α → List α
  | _, [] => []
  | [], rows => rows
  | keep :: mask, row :: rows =>
    if keep then row :: applySelection mask rows else applySelection mask rows

def logicalRow (engine : Engine V L ε) (options : Options) (file : ScanFile)
    (row : (V × Nat) × Option Int) : Row L where
  file := if options.tagPath then some file.path else none
  index := row.1.2
  value := engine.logical file row.1.1
  commitVersion := row.2

/-- A physical batch in logical form, less the rows its slice of the mask drops, and the rest of
the mask. -/
def finishBatch (engine : Engine V L ε) (options : Options) (file : ScanFile)
    (selection : Option (List Bool)) (physical : List (V × Nat)) :
    Except ε (List (Row L) × Option (List Bool)) := do
  let versions ← takeCommitVersions engine options file physical
  if let some e := engine.transformError file (physical.map Prod.fst) then
    throw e
  let logical := (physical.zip versions).map (logicalRow engine options file)
  match selection with
  | none => pure (logical, none)
  | some mask =>
    if logical.length < mask.length then
      pure (applySelection (mask.take logical.length) logical, some (mask.drop logical.length))
    else pure (applySelection mask logical, none)

/-- The batches of a file, one after another, up to the first that fails. -/
def streamBatches (engine : Engine V L ε) (options : Options) (file : ScanFile) :
    Option (List Bool) → List (Except ε (List (V × Nat))) → List (Except ε (List (Row L)))
  | _, [] => []
  | _, .error e :: _ => [.error e]
  | selection, .ok physical :: batches =>
    match finishBatch engine options file selection physical with
    | .error e => [.error e]
    | .ok (rows, rest) => .ok rows :: streamBatches engine options file rest batches

/-- A file read in full: all its batches, or the error of the first that fails. -/
def finishAll (engine : Engine V L ε) (options : Options) (file : ScanFile) :
    Option (List Bool) → List (Except ε (List (V × Nat))) → Except ε (List (List (Row L)))
  | _, [] => .ok []
  | _, .error e :: _ => .error e
  | selection, .ok physical :: batches => do
    let (rows, rest) ← finishBatch engine options file selection physical
    let more ← finishAll engine options file rest batches
    pure (rows :: more)

def loadFile (engine : Engine V L ε) (options : Options) (file : ScanFile) :
    Except ε (List (List (Row L))) := do
  let opened ← openFile engine file
  finishAll engine options file opened.selection opened.batches

/-- The values of the batches that read. -/
def values : List (Except ε (List V)) → List V
  | [] => []
  | .error _ :: batches => values batches
  | .ok vs :: batches => vs ++ values batches

/-- A value's commit version, where the scan reads them. -/
def commitVersion (engine : Engine V L ε) (options : Options) (file : ScanFile) (value : V) :
    Option Int :=
  if options.commitVersions then (engine.rowCommitVersion value).or file.defaultRowCommitVersion
  else none

def rowAt (engine : Engine V L ε) (options : Options) (file : ScanFile) (value : V × Nat) : Row L :=
  logicalRow engine options file (value, commitVersion engine options file value.1)

/-- Whether a deletion vector's mask keeps the row at an index. -/
def keeps (selection : Option (List Bool)) (index : Nat) : Bool :=
  match selection with
  | none => true
  | some mask => mask[index]?.getD true

/-- The rows of a file its mask keeps, each with its index in the file, in file order. -/
def keptRows (engine : Engine V L ε) (options : Options) (file : ScanFile) : List (Row L) :=
  match engine.selectionVector file, engine.readParquet file with
  | .ok selection, .ok batches =>
    ((values batches).zipIdx.filter fun value => keeps selection value.2).map
      (rowAt engine options file)
  | _, _ => []

section
variable {α : Type}

theorem applySelection_nil (rows : List α) : applySelection [] rows = rows := by
  cases rows <;> rfl

theorem applySelection_take (mask : List Bool) (rows : List α) :
    applySelection (mask.take rows.length) rows = applySelection mask rows := by
  induction rows generalizing mask with
  | nil => cases mask <;> rfl
  | cons row rows ih =>
    cases mask with
    | nil => rfl
    | cons keep mask => simp only [length_cons, take_succ_cons, applySelection, ih]

theorem applySelection_append (mask : List Bool) (rows more : List α) :
    applySelection mask (rows ++ more) =
      applySelection mask rows ++ applySelection (mask.drop rows.length) more := by
  induction rows generalizing mask with
  | nil =>
    rw [nil_append, length_nil, drop_zero]
    cases mask <;> rfl
  | cons row rows ih =>
    cases mask with
    | nil => simp [applySelection_nil]
    | cons keep mask =>
      simp only [cons_append, length_cons, drop_succ_cons, applySelection, ih]
      cases keep <;> rfl

theorem applySelection_zipIdx (mask : List Bool) (l : List α) (start : Nat) :
    applySelection mask (l.zipIdx start) =
      (l.zipIdx start).filter fun value => mask[value.2 - start]?.getD true := by
  induction l generalizing mask start with
  | nil => cases mask <;> rfl
  | cons a l ih =>
    rw [zipIdx_cons]
    cases mask with
    | nil => simp [applySelection_nil]
    | cons keep mask =>
      have hrest : (l.zipIdx (start + 1)).filter
          (fun value => (keep :: mask)[value.2 - start]?.getD true) =
          (l.zipIdx (start + 1)).filter fun value => mask[value.2 - (start + 1)]?.getD true := by
        refine filter_congr fun value hvalue => ?_
        have hle := le_snd_of_mem_zipIdx hvalue
        rw [show value.2 - start = value.2 - (start + 1) + 1 by omega, List.getElem?_cons_succ]
      simp only [applySelection]
      rw [ih, filter_cons, hrest]
      simp only [Nat.sub_self, List.getElem?_cons_zero, Option.getD_some]

theorem applySelection_map {β : Type} (f : α → β) (mask : List Bool) (rows : List α) :
    applySelection mask (rows.map f) = (applySelection mask rows).map f := by
  induction rows generalizing mask with
  | nil => cases mask <;> rfl
  | cons row rows ih =>
    cases mask with
    | nil => rfl
    | cons keep mask =>
      simp only [map_cons, applySelection, ih]
      cases keep <;> rfl

end

section
variable {engine : Engine V L ε} {options : Options} {file : ScanFile}

theorem keeps_eq (selection : Option (List Bool)) (index : Nat) :
    keeps selection index = (selection.getD [])[index]?.getD true := by
  cases selection <;> rfl

theorem takeCommitVersions_ok {physical : List (V × Nat)} {versions : List (Option Int)}
    (h : takeCommitVersions engine options file physical = .ok versions) :
    versions = physical.map fun row => commitVersion engine options file row.1 := by
  simp only [takeCommitVersions] at h
  unfold commitVersion
  split_ifs at h with hversions hall
  · rw [← Except.ok.inj h]
    refine map_congr_left fun row hrow => ?_
    rw [if_pos hversions]
    obtain ⟨version, hversion⟩ := Option.isSome_iff_exists.mp
      (all_eq_true.mp hall _ (mem_map_of_mem hrow))
    rw [hversion]
    rfl
  · cases hdefault : file.defaultRowCommitVersion with
    | none =>
      rw [hdefault] at h
      cases h
    | some default =>
      rw [hdefault] at h
      rw [← Except.ok.inj h, map_map]
      refine map_congr_left fun row _ => ?_
      rw [if_pos hversions, Function.comp_apply]
      cases engine.rowCommitVersion row.1 <;> rfl
  · rw [← Except.ok.inj h]
    refine map_congr_left fun row _ => ?_
    rw [if_neg hversions]

theorem zip_map_logicalRow (physical : List (V × Nat)) :
    (physical.zip (physical.map fun row => commitVersion engine options file row.1)).map
      (logicalRow engine options file) = physical.map (rowAt engine options file) := by
  induction physical with
  | nil => rfl
  | cons row physical ih =>
    simp only [map_cons, zip_cons_cons, ih]
    rfl

variable {selection : Option (List Bool)}

theorem finishBatch_ok {rest : Option (List Bool)} {physical : List (V × Nat)} {rows : List (Row L)}
    (h : finishBatch engine options file selection physical = .ok (rows, rest)) :
    rows = (applySelection (selection.getD []) physical).map (rowAt engine options file) ∧
      rest.getD [] = (selection.getD []).drop physical.length := by
  obtain ⟨versions, hversions, h⟩ := Result.bind_eq_ok_iff.mp h
  rw [takeCommitVersions_ok hversions] at h
  cases htransform : engine.transformError file (physical.map Prod.fst) with
  | some e =>
    rw [htransform] at h
    cases h
  | none =>
    rw [htransform] at h
    simp only [zip_map_logicalRow, length_map] at h
    cases selection with
    | none =>
      cases h
      simp [applySelection_nil]
    | some mask =>
      dsimp only [Option.getD_some] at h ⊢
      rw [← applySelection_map]
      split_ifs at h with hlt
      · cases h
        refine ⟨?_, rfl⟩
        have htake := applySelection_take mask (physical.map (rowAt engine options file))
        rwa [length_map] at htake
      · cases h
        exact ⟨rfl, (drop_eq_nil_of_le (by omega)).symm⟩

theorem finishAll_ok {batches : List (Except ε (List V))} {start : Nat}
    {finished : List (List (Row L))}
    (h : finishAll engine options file selection (numbered start batches) = .ok finished) :
    finished.flatten = (applySelection (selection.getD []) ((values batches).zipIdx start)).map
      (rowAt engine options file) := by
  induction batches generalizing selection start finished with
  | nil =>
    cases h
    cases selection.getD [] <;> rfl
  | cons batch batches ih =>
    cases batch with
    | error e => cases h
    | ok vs =>
      obtain ⟨⟨rows, rest⟩, hbatch, h⟩ := Result.bind_eq_ok_iff.mp h
      obtain ⟨more, hmore, h⟩ := Result.bind_eq_ok_iff.mp h
      obtain ⟨hrows, hrest⟩ := finishBatch_ok hbatch
      rw [length_zipIdx] at hrest
      cases h
      rw [flatten_cons, ih hmore, hrows, hrest, values, zipIdx_append,
        applySelection_append, map_append, length_zipIdx]

variable (engine options file) in
/-- Batch by batch, a file comes to what reading it in full does: all its rows, or part of them and
the error. -/
theorem streamBatches_eq (batches : List (Except ε (List V))) (selection : Option (List Bool))
    (start : Nat) :
    ∃ finished : List (List (Row L)),
      finished.flatten <+: (applySelection (selection.getD []) ((values batches).zipIdx start)).map
        (rowAt engine options file) ∧
      ((finishAll engine options file selection (numbered start batches) = .ok finished ∧
          streamBatches engine options file selection (numbered start batches) =
            finished.map .ok) ∨
        ∃ e, finishAll engine options file selection (numbered start batches) = .error e ∧
          streamBatches engine options file selection (numbered start batches) =
            finished.map .ok ++ [.error e]) := by
  induction batches generalizing selection start with
  | nil =>
    refine ⟨[], ?_, .inl ⟨rfl, rfl⟩⟩
    exact nil_prefix
  | cons batch batches ih =>
    cases batch with
    | error e => exact ⟨[], nil_prefix, .inr ⟨e, rfl, rfl⟩⟩
    | ok vs =>
      simp only [numbered, streamBatches, finishAll]
      cases hbatch : finishBatch engine options file selection (vs.zipIdx start) with
      | error e => exact ⟨[], nil_prefix, .inr ⟨e, rfl, rfl⟩⟩
      | ok finishedBatch =>
        obtain ⟨rows, rest⟩ := finishedBatch
        obtain ⟨hrows, hrest⟩ := finishBatch_ok hbatch
        rw [length_zipIdx] at hrest
        obtain ⟨finished, hfirst, hends⟩ := ih rest (start + vs.length)
        refine ⟨rows :: finished, ?_, ?_⟩
        · rw [flatten_cons, hrows, values, zipIdx_append, applySelection_append,
            map_append, length_zipIdx, ← hrest]
          exact (prefix_append_right_inj _).mpr hfirst
        · rcases hends with ⟨hall, hstream⟩ | ⟨e, hall, hstream⟩
          · refine .inl ⟨?_, ?_⟩
            · rw [Result.ok_bind]
              dsimp only
              rw [hall]
              rfl
            · dsimp only
              rw [hstream]
              rfl
          · refine .inr ⟨e, ?_, ?_⟩
            · rw [Result.ok_bind]
              dsimp only
              rw [hall]
              rfl
            · dsimp only
              rw [hstream]
              rfl

theorem openFile_ok {opened : OpenFile V ε} (h : openFile engine file = .ok opened) :
    ∃ batches, engine.selectionVector file = .ok opened.selection ∧
      engine.readParquet file = .ok batches ∧ opened.file = file ∧
        opened.batches = numbered 0 batches := by
  obtain ⟨selection, hselection, h⟩ := Result.bind_eq_ok_iff.mp h
  obtain ⟨batches, hbatches, h⟩ := Result.bind_eq_ok_iff.mp h
  dsimp only at h
  split_ifs at h
  · cases h
  · cases h
    exact ⟨batches, hselection, hbatches, rfl, rfl⟩

theorem keptRows_eq {batches : List (Except ε (List V))}
    (hselection : engine.selectionVector file = .ok selection)
    (hbatches : engine.readParquet file = .ok batches) :
    keptRows engine options file =
      (applySelection (selection.getD []) ((values batches).zipIdx 0)).map
        (rowAt engine options file) := by
  unfold keptRows
  rw [hselection, hbatches, applySelection_zipIdx]
  simp only [keeps_eq, Nat.sub_zero]

/-- A file's batches as they come, one after another. -/
def fileStream (engine : Engine V L ε) (options : Options) (file : ScanFile) :
    List (Except ε (List (Row L))) :=
  match openFile engine file with
  | .error e => [.error e]
  | .ok opened => streamBatches engine options file opened.selection opened.batches

/-- A file read ahead: all its batches, or its error. -/
def fileLoaded (engine : Engine V L ε) (options : Options) (file : ScanFile) :
    List (Except ε (List (Row L))) :=
  match loadFile engine options file with
  | .error e => [.error e]
  | .ok batches => batches.map .ok

/-- What a scan delivers of a file: all the rows its mask keeps, or a first part of them and its
error. -/
def DeliversFile (engine : Engine V L ε) (options : Options) (file : ScanFile)
    (items : List (Except ε (List (Row L)))) : Prop :=
  ∃ batches : List (List (Row L)),
    (items = batches.map .ok ∧ batches.flatten = keptRows engine options file) ∨
    ∃ e, loadFile engine options file = .error e ∧ items = batches.map .ok ++ [.error e] ∧
      batches.flatten <+: keptRows engine options file

theorem fileStream_delivers :
    DeliversFile engine options file (fileStream engine options file) := by
  unfold fileStream
  cases hopen : openFile engine file with
  | error e =>
    refine ⟨[], .inr ⟨e, ?_, rfl, nil_prefix⟩⟩
    rw [loadFile, hopen]
    rfl
  | ok opened =>
    obtain ⟨batches, hselection, hbatches, -, hnumbered⟩ := openFile_ok hopen
    dsimp only
    rw [hnumbered]
    obtain ⟨finished, hfirst, hends⟩ :=
      streamBatches_eq engine options file batches opened.selection 0
    refine ⟨finished, ?_⟩
    rcases hends with ⟨hall, hstream⟩ | ⟨e, hall, hstream⟩
    · refine .inl ⟨hstream, ?_⟩
      rw [finishAll_ok hall, keptRows_eq hselection hbatches]
    · refine .inr ⟨e, ?_, hstream, ?_⟩
      · rw [loadFile, hopen, Result.ok_bind, hnumbered]
        exact hall
      · rw [keptRows_eq hselection hbatches]
        exact hfirst

theorem fileLoaded_delivers :
    DeliversFile engine options file (fileLoaded engine options file) := by
  unfold fileLoaded
  cases hload : loadFile engine options file with
  | error e => exact ⟨[], .inr ⟨e, hload, rfl, nil_prefix⟩⟩
  | ok loaded =>
    obtain ⟨opened, hopen, hall⟩ := Result.bind_eq_ok_iff.mp hload
    obtain ⟨batches, hselection, hbatches, -, hnumbered⟩ := openFile_ok hopen
    rw [hnumbered] at hall
    refine ⟨loaded, .inl ⟨rfl, ?_⟩⟩
    rw [finishAll_ok hall, keptRows_eq hselection hbatches]

end

end DeltaSwamp.Scan
