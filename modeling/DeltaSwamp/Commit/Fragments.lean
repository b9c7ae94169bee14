import DeltaSwamp.Commit.Staging
import DeltaSwamp.Dict

/-!
# Committing fragments

`commit_files` of `commit.rs`: the fragments decoded and checked, the removes
of an overwrite, and the transaction handed to the kernel.
-/

namespace DeltaSwamp.Commit

inductive FilesError where
  | native (error : NativeError)
  /-- The bytes do not decode. -/
  | notAFragment (shown : Text)
  /-- Written for the table `root`, not for this one. -/
  | otherTable (root id tableRoot metadataId : Text)
  | noIdentity
  | noPath
  | notStrings
  | nullPath
  /-- Named in more than one fragment, or twice in one. -/
  | duplicate (path : Text)
  /-- Already live, so an overwrite would add and remove it. -/
  | live (path : Text)
  /-- Scan metadata that is not Arrow-backed. -/
  | scanNotArrow
  /-- More selected than there are rows. -/
  | selection
  deriving DecidableEq

abbrev Bytes := List UInt8

/-- An Arrow IPC stream: its schema's metadata and its batches. -/
structure IpcStream where
  metadata : Dict Text Text
  batches : List (Except Text AddBatch)

def fragmentTableRoot : Text := "deltaswamp.table_root".toList

def fragmentMetadataId : Text := "deltaswamp.metadata_id".toList

/-- Decode a fragment, refusing one written for a different table. -/
def ipcToBatches (readStream : Bytes → Except Text IpcStream) (tableRoot metadataId : Text)
    (bytes : Bytes) : Except FilesError (List AddBatch) :=
  if bytes = [] then .ok []
  else do
    let stream ← (readStream bytes).mapError .notAFragment
    match stream.metadata.get fragmentTableRoot, stream.metadata.get fragmentMetadataId with
    | some root, some id =>
      if root ≠ tableRoot ∨ id ≠ metadataId then
        .error (.otherTable root id tableRoot metadataId)
      else stream.batches.mapM fun batch => batch.mapError .notAFragment
    | _, _ => .error .noIdentity

/-- The loop of `refuse_duplicate_paths`; `seen` is the set of paths so far. -/
def addPaths (seen : List Text) : List (Option Text) → Except FilesError (List Text)
  | [] => .ok seen
  | none :: _ => .error .nullPath
  | some path :: paths =>
    if path ∈ seen then .error (.duplicate path) else addPaths (path :: seen) paths

def refuseDuplicatePaths (seen : List Text) (batch : AddBatch) : Except FilesError (List Text) :=
  match batch.path with
  | .missing => .error .noPath
  | .uncastable shown => .error (.native (.arrow shown))
  | .notText => .error .notStrings
  | .texts paths => addPaths seen paths

/-- One batch of a fragment: its paths checked, then kept. -/
def keepBatch (kept : List Text × List AddBatch) (batch : AddBatch) :
    Except FilesError (List Text × List AddBatch) := do
  let seen ← refuseDuplicatePaths kept.1 batch
  return (seen, kept.2 ++ [batch])

/-- One fragment, decoded and kept batch by batch. -/
def keepFragment (readStream : Bytes → Except Text IpcStream) (tableRoot metadataId : Text)
    (kept : List Text × List AddBatch) (fragment : Bytes) :
    Except FilesError (List Text × List AddBatch) := do
  let batches ← ipcToBatches readStream tableRoot metadataId fragment
  batches.foldlM keepBatch kept

/-- The loop over the fragments: the paths seen and the batches decoded. -/
def decodeFragments (readStream : Bytes → Except Text IpcStream) (tableRoot metadataId : Text)
    (fragments : List Bytes) : Except FilesError (List Text × List AddBatch) :=
  fragments.foldlM (keepFragment readStream tableRoot metadataId) ([], [])

/-- `FilteredEngineData` -/
structure Filtered (α : Type) where
  data : α
  selection : List Bool

/-- The rows a selection keeps; rows past its end are selected. -/
def selectedRows {α : Type} : List Bool → List α → List α
  | _, [] => []
  | [], rows => rows
  | true :: selection, row :: rows => row :: selectedRows selection rows
  | false :: selection, _ :: rows => selectedRows selection rows

/-- A row of the kernel's scan metadata. -/
structure ScanRow where
  path : Option Text
  size : Option Int
  stats : Option Text
  deletionVector : Option Text
  partitionValues : Option (Dict Text (Option Text))
  tags : Option (Dict Text (Option Text))
  baseRowId : Option Int
  defaultRowCommitVersion : Option Int

inductive ScanData where
  | arrow (rows : List ScanRow)
  /-- Data of another engine's kind, of so many rows. -/
  | other (rows : Nat)

def ScanData.length : ScanData → Nat
  | .arrow rows => rows.length
  | .other rows => rows

/-- A `remove` action. -/
structure Remove where
  path : Option Text
  deletionTimestamp : Int
  dataChange : Bool
  extendedFileMetadata : Bool
  partitionValues : Option (Dict Text (Option Text))
  size : Option Int
  stats : Option Text
  tags : Option (Dict Text (Option Text))
  deletionVector : Option Text
  baseRowId : Option Int
  defaultRowCommitVersion : Option Int

/-- What the log knows a file by. -/
abbrev FileKey := Option Text × Option Text

def ScanRow.key (row : ScanRow) : FileKey := (row.path, row.deletionVector)

def Remove.key (remove : Remove) : FileKey := (remove.path, remove.deletionVector)

structure TableSnapshot where
  tableRoot : Text
  metadataId : Text
  /-- `metadata_configuration` -/
  configuration : Dict Text Text
  /-- The rowTracking feature is supported. -/
  rowTracking : Bool
  /-- The icebergCompatV3 feature is enabled. -/
  icebergCompatV3 : Bool
  /-- The scan metadata of every file, batch by batch. -/
  scan : Except NativeError (List (Except NativeError (Filtered ScanData)))

/-- The live files of one batch of scan metadata. -/
def liveRows : Except NativeError (Filtered ScanData) → List ScanRow
  | .ok ⟨.arrow rows, selection⟩ => selectedRows selection rows
  | _ => []

/-- The files the snapshot's log replay leaves, in its order. -/
def TableSnapshot.live (snapshot : TableSnapshot) : List ScanRow :=
  match snapshot.scan with
  | .error _ => []
  | .ok batches => batches.flatMap liveRows

/-- `eq_ignore_ascii_case("true")` of a property, if it is set -/
def TableSnapshot.declares (snapshot : TableSnapshot) (property : Text) : Bool :=
  (snapshot.configuration.get property).any fun value =>
    value.map Char.toLower = "true".toList

/-- `RemovesByHand::needed` -/
def TableSnapshot.needsByHand (snapshot : TableSnapshot) : Bool :=
  snapshot.rowTracking && !snapshot.declares "delta.rowTrackingSuspended".toList &&
    !snapshot.icebergCompatV3

def TableSnapshot.changeDataFeed (snapshot : TableSnapshot) : Bool :=
  snapshot.declares "delta.enableChangeDataFeed".toList

/-- `compact_scan_rows` -/
def compactScanRows (filtered : Filtered ScanData) (adds : List Text) :
    Except FilesError (Option (List ScanRow × List Bool)) :=
  if selectedRows filtered.selection (List.replicate filtered.data.length ()) = [] then .ok none
  else
    match filtered.data with
    | .other _ => .error .scanNotArrow
    | .arrow rows =>
      let rows := selectedRows filtered.selection rows
      match rows.findSome? fun row => row.path.filter (· ∈ adds) with
      | some path => .error (.live path)
      | none =>
        .ok (some (rows.map fun row => { row with stats := none },
          List.replicate rows.length true))

/-- `RemovesByHand::remove` of one scan row -/
def removeOf (deletionTimestamp : Int) (dataChange : Bool) (row : ScanRow) : Remove where
  path := row.path
  deletionTimestamp
  dataChange
  extendedFileMetadata := row.size.isSome && row.partitionValues.isSome
  partitionValues := row.partitionValues
  size := row.size
  stats := row.stats
  tags := row.tags
  deletionVector := row.deletionVector
  baseRowId := row.baseRowId
  defaultRowCommitVersion := row.defaultRowCommitVersion

/-- The actions a call has staged: in its transaction, and by hand in its patch. -/
structure Staged where
  adds : List AddBatch
  removes : List (Filtered (List ScanRow))
  extraActions : List (Filtered (List Remove))

def Staged.nothing : Staged := ⟨[], [], []⟩

/-- What the call takes from Arrow and the kernel. -/
structure Committer where
  readStream : Bytes → Except Text IpcStream
  /-- `writing_snapshot`, which changes no more than the protocol -/
  restate : TableSnapshot → Except NativeError Unit
  /-- `RemovesByHand::new` -/
  newRemovesByHand : Except NativeError Unit
  /-- whether the evaluator runs on these rows -/
  evaluate : List ScanRow → Except NativeError Unit
  nowMillis : Int
  /-- what `FilteredEngineData::try_new` checks of a selection, for so many rows -/
  checkSelection : Nat → List Bool → Except FilesError Unit
  beginTransaction : TableSnapshot → Except NativeError Unit
  commit : Staged → Except KernelError CommitResult
  lowerChar : Char → Text

namespace Committer
variable (lib : Committer)

/-- `FilteredEngineData::try_new` -/
def tryNew {α : Type} (rows : List α) (selected : List Bool) :
    Except FilesError (Filtered (List α)) := do
  lib.checkSelection rows.length selected
  return ⟨rows, selected⟩

/-- `RemovesByHand::of` -/
def removesOf (rows : List ScanRow) (selected : List Bool) :
    Except FilesError (Filtered (List Remove)) := do
  (lib.evaluate rows).mapError .native
  lib.tryNew (rows.map (removeOf lib.nowMillis true)) selected

/-- The loop of `overwrite_removes`: the removes returned, and those staged by hand. -/
def stageRemoves (byHand : Bool) (adds : List Text) :
    List (Except NativeError (Filtered ScanData)) → List (Filtered (List ScanRow)) →
      List (Filtered (List Remove)) →
        Except FilesError (List (Filtered (List ScanRow))) × List (Filtered (List Remove))
  | [], removes, extra => (.ok removes, extra)
  | .error e :: _, _, extra => (.error (.native e), extra)
  | .ok filtered :: batches, removes, extra =>
    match compactScanRows filtered adds with
    | .error e => (.error e, extra)
    | .ok none => stageRemoves byHand adds batches removes extra
    | .ok (some (rows, selected)) =>
      if byHand then
        match lib.removesOf rows selected with
        | .error e => (.error e, extra)
        | .ok staged => stageRemoves byHand adds batches removes (extra ++ [staged])
      else
        match lib.tryNew rows selected with
        | .error e => (.error e, extra)
        | .ok staged => stageRemoves byHand adds batches (removes ++ [staged]) extra

def overwriteRemoves (snapshot : TableSnapshot) (adds : List Text) :
    Except FilesError (List (Filtered (List ScanRow))) × List (Filtered (List Remove)) :=
  match snapshot.scan with
  | .error e => (.error (.native e), [])
  | .ok batches =>
    if snapshot.needsByHand || snapshot.changeDataFeed then
      match lib.newRemovesByHand with
      | .error e => (.error (.native e), [])
      | .ok () => lib.stageRemoves true adds batches [] []
    else lib.stageRemoves false adds batches [] []

/-- The removes of either mode. -/
def removesFor (snapshot : TableSnapshot) (overwrite : Bool) (seen : List Text) :
    Except FilesError (List (Filtered (List ScanRow))) × List (Filtered (List Remove)) :=
  if overwrite then lib.overwriteRemoves snapshot seen else (.ok [], [])

/-- `commit_files` with a patch that holds no action yet, as the binding makes
it: its result, and the actions it had staged by then. -/
def commitFiles (snapshot : TableSnapshot) (fragments : List Bytes) (overwrite : Bool) :
    Except FilesError Version × Staged :=
  match lib.restate snapshot with
  | .error e => (.error (.native e), .nothing)
  | .ok () =>
    match decodeFragments lib.readStream snapshot.tableRoot snapshot.metadataId fragments with
    | .error e => (.error e, .nothing)
    | .ok (seen, decoded) =>
      match lib.removesFor snapshot overwrite seen with
      | (.error e, extraActions) => (.error e, ⟨[], [], extraActions⟩)
      | (.ok removes, extraActions) =>
        match lib.beginTransaction snapshot with
        | .error e => (.error (.native e), ⟨[], [], extraActions⟩)
        | .ok () =>
          let staged := ⟨decoded, removes, extraActions⟩
          ((finishCommitAs lib.lowerChar (lib.commit staged)).mapError .native, staged)

end Committer

end DeltaSwamp.Commit
