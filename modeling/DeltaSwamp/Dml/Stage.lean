import Mathlib.Data.Finset.SDiff
import Mathlib.Order.Lattice.Nat
import DeltaSwamp.Assoc
import DeltaSwamp.Commit.Error
import DeltaSwamp.Result

/-!
# Staging a row-level commit

`commit_dml` of `dml.rs` up to the upload of its deletion vectors: the fate of
every named file, and the removes and vector updates staged from the scan's
batches. Nothing is written before it returns.
-/

namespace DeltaSwamp.Dml

open Commit Assoc

/-- A live file of the scan. `count` is the number of rows its Parquet footer
gives, `sized` whether the add's statistics carry it too. -/
structure ScanFile where
  path : Text
  count : Nat
  sized : Bool
  vector : Option (Finset Nat)
  /-- Why its vector or its footer cannot be read, if so. -/
  vectorError : Option NativeError
  footerError : Option NativeError
  vector_lt : ∀ rows, vector = some rows → rows ⊆ Finset.range count

/-- One batch of scan rows, those without a path included, and the selection
vector, which may be shorter. -/
structure ScanBatch where
  rows : List (Option ScanFile)
  selection : List Bool

def ScanBatch.selected (batch : ScanBatch) : List ScanFile :=
  (batch.rows.zipIdx.filter fun row => batch.selection[row.2]?.getD true).filterMap Prod.fst

structure Snapshot where
  version : Version
  batches : List ScanBatch
  deletionVectors : Bool
  rowTracking : Bool
  rowTrackingSuspended : Bool
  icebergCompatV3 : Bool
  /-- Conforming the rows and opening the transaction. -/
  opened : Except NativeError Unit
  files_nodup : ((batches.flatMap ScanBatch.selected).map ScanFile.path).Nodup

inductive Data where
  /-- The number of rows of each batch. -/
  | batches (rows : List Nat)
  | stream (rows : Except NativeError (List Nat))

/-- The rows to delete by file, the files every row of which goes, and the new rows. -/
structure Request where
  deletions : List (Text × Finset Nat)
  wholeFiles : List Text
  data : Data
  dataChange : Bool
  deletions_nodup : (deletions.map Prod.fst).Nodup
  wholeFiles_nodup : wholeFiles.Nodup

inductive Refusal where
  | vectorsDisabled
  | notLive (path : Text) (version : Version)
  | outOfRange (row : Nat) (path : Text) (count : Nat)
  | unsized (path : Text)
  | streamed
  | failed (error : NativeError)

/-- The error a refusal is; `debug` is the `{:?}` rendering of a string. -/
def Refusal.error (debug : Text → Text) : Refusal → NativeError
  | .vectorsDisabled =>
    .invalid ("the table does not have deletion vectors enabled (the deletionVectors reader and " ++
      "writer feature, and delta.enableDeletionVectors=true), so rows cannot be deleted " ++
      "by deletion vector").toList
  | .notLive path version =>
    .invalid ("data file ".toList ++ debug path ++ (" is not live in version " ++
      toString version ++ " of the table; rows can be deleted " ++
      "only from the snapshot they were read from").toList)
  | .outOfRange row path count =>
    .invalid (("row index " ++ toString row ++ " is out of range for data file ").toList ++
      debug path ++ (", which holds " ++ toString count ++ " rows").toList)
  | .unsized path =>
    .invalid ("data file ".toList ++ debug path ++ (" has no numRecords statistic and the table " ++
      "tracks row ids, so it can neither take a deletion vector nor be removed").toList)
  | .streamed => .invalid "only a compaction (data_change=False) streams its rows".toList
  | .failed error => error

/-- One live file the commit touches, and what becomes of it. -/
structure Touched where
  deleted : Finset Nat
  newlyDeleted : Nat
  remove : Bool

structure Staged where
  removes : List Text
  updates : List (Text × Finset Nat)
  deletedRows : Nat
  data : Data

def lift {α : Type} : Except NativeError α → Except Refusal α
  | .ok a => .ok a
  | .error e => .error (.failed e)

namespace Snapshot

variable (s : Snapshot)

def files : List ScanFile := s.batches.flatMap ScanBatch.selected

def removesAllowed : Bool := !(s.rowTracking && !s.rowTrackingSuspended) && !s.icebergCompatV3

/-- `RemovesByHand::needed`. -/
def byHand : Bool := s.rowTracking && !s.rowTrackingSuspended && !s.icebergCompatV3

def allowRemove : Bool := s.removesAllowed || s.byHand

def live (path : Text) : Except Refusal ScanFile :=
  match s.files.find? fun f => f.path = path with
  | some file => .ok file
  | none => .error (.notLive path s.version)

end Snapshot

namespace ScanFile

variable (f : ScanFile)

def rowIndexes : Except Refusal (Option (Finset Nat)) :=
  match f.vectorError with
  | some e => .error (.failed e)
  | none => .ok f.vector

def footerNumRows : Except Refusal Nat :=
  match f.footerError with
  | some e => .error (.failed e)
  | none => .ok f.count

end ScanFile

section
variable (s : Snapshot)

/-- The row count a whole file's fate needs: none where the file is simply
removed, which is not worth a footer read. -/
def wholeCount (file : ScanFile) : Except Refusal (Option Nat) :=
  if file.sized then .ok (some file.count)
  else if s.allowRemove then .ok none
  else file.footerNumRows.map some

def rowCount (file : ScanFile) : Except Refusal Nat :=
  if file.sized then .ok file.count else file.footerNumRows

/-- The fate of a file named as a whole; none when nothing is left to delete. -/
def touchWhole (path : Text) : Except Refusal (Option Touched) := do
  let file ← s.live path
  let already := ((← file.rowIndexes).getD ∅).card
  match ← wholeCount s file with
  | some n =>
    if n = already then .ok none
    else .ok (some ⟨Finset.range n, n - already, s.allowRemove⟩)
  | none =>
    if s.allowRemove then .ok (some ⟨∅, 0, true⟩) else .error (.unsized path)

/-- The fate of a file rows of which are named; none when all are deleted already. -/
def touchRows (path : Text) (rows : Finset Nat) : Except Refusal (Option Touched) := do
  let file ← s.live path
  let numRecords ← rowCount file
  if rows.Nonempty ∧ numRecords ≤ rows.sup id then
    .error (.outOfRange (rows.sup id) path numRecords)
  else
    let existing := (← file.rowIndexes).getD ∅
    let deleted := existing ∪ rows
    let newlyDeleted := deleted.card - existing.card
    if newlyDeleted = 0 then .ok none
    else .ok (some ⟨deleted, newlyDeleted, s.allowRemove && deleted.card = numRecords⟩)

/-- The deletions that name rows, of files not named as a whole. -/
def Request.rowDeletions (r : Request) : List (Text × Finset Nat) :=
  r.deletions.filter fun d => d.2 ≠ ∅ ∧ d.1 ∉ r.wholeFiles

def touchedFiles (r : Request) : Except Refusal (List (Text × Touched)) := do
  let whole ← r.wholeFiles.mapM fun path => return (path, ← touchWhole s path)
  let rows ← r.rowDeletions.mapM fun d => return (d.1, ← touchRows s d.1 d.2)
  return present (whole ++ rows)

def removals (touched : List (Text × Touched)) : List Text :=
  (touched.filter fun t => t.2.remove).map Prod.fst

def descriptors (touched : List (Text × Touched)) : List (Text × Finset Nat) :=
  (touched.filter fun t => !t.2.remove).map fun t => (t.1, t.2.deleted)

/-- The remove mask over the scan's batches, by hand or by the kernel. -/
def maskedRemoves (touched : List (Text × Touched)) : List Text :=
  s.batches.flatMap fun batch =>
    (batch.selected.filter fun f => f.path ∈ removals touched).map ScanFile.path

/-- The update mask over the same batches. -/
def maskedUpdates (touched : List (Text × Touched)) : List (Text × Finset Nat) :=
  s.batches.flatMap fun batch =>
    batch.selected.filterMap fun f =>
      ((descriptors touched).lookup f.path).map fun deleted => (f.path, deleted)

/-- What is left of the data to write: a stream is read at once when no file
is touched. -/
def dataToWrite (r : Request) (touched : List (Text × Touched)) : Except Refusal Data :=
  match r.data with
  | .batches rows => .ok (.batches rows)
  | .stream rows =>
    if r.dataChange then .error .streamed
    else if touched.isEmpty then do return .batches (← lift rows)
    else .ok (.stream rows)

def Data.isEmpty : Data → Bool
  | .batches rows => rows.isEmpty
  | .stream _ => false

/-- What `commit_dml` stages; none when it makes no commit. Counts are `u64`. -/
def stage (r : Request) : Except Refusal (Option Staged) :=
  if r.rowDeletions ≠ [] ∧ s.deletionVectors = false then .error .vectorsDisabled
  else do
    let touched ← touchedFiles s r
    let data ← dataToWrite r touched
    if touched.isEmpty ∧ data.isEmpty then .ok none
    else
      let _ ← lift s.opened
      -- The kernel stages no vector update on a table without deletion vectors.
      if descriptors touched ≠ [] ∧ s.deletionVectors = false then .error .vectorsDisabled
      else .ok (some {
        removes := maskedRemoves s touched
        updates := maskedUpdates s touched
        deletedRows := (touched.map fun t => t.2.newlyDeleted).sum % 2 ^ 64
        data := data })

end

end DeltaSwamp.Dml
