import DeltaSwamp.Rewrite.Assign
import DeltaSwamp.Table.Commit

/-!
# The three paths of a DML statement

DELETE, UPDATE and replaceWhere by deletion vectors (`_dv_dml`), by rewriting
the files they touch (`_as_file_rewrites`) and by rewriting the table
(`_rewrite`): what each fails on, reports and leaves.
-/

namespace DeltaSwamp.Rewrite

open Table

/-- A valid table whose vectors give the number of rows they hide. -/
structure Contents {ν : Type} (st : Storage (Row ν)) where
  log : Log
  valid : st.Valid log
  counted : ∀ f ∈ files log, ∀ v ∈ f.deletionVector, v.cardinality = (st.hidden v).card

/-- New data, column by column. -/
structure Incoming (τ ν : Type) where
  columns : List (String × τ × List ν)
  numRows : Nat

inductive Statement (τ ν L : Type) where
  | delete (predicate : Option (Row ν → Option Bool))
  | update (predicate : Option (Row ν → Option Bool)) (assignments : SetList L)
  | replaceWhere (predicate : Row ν → Option Bool) (data : Incoming τ ν)

section
variable {τ ν L : Type}

/-- Whether the predicate is TRUE of a row. -/
def isTrue (predicate : Option (Row ν → Option Bool)) (r : Row ν) : Bool :=
  predicate.elim true fun p => p r = some true

/-- The rows a statement matches. -/
def Statement.matches : Statement τ ν L → Row ν → Bool
  | .delete p => isTrue p
  | .update p _ => isTrue p
  | .replaceWhere p _ => isTrue (some p)

end

section
variable {τ ν L : Type} [DecidableEq τ] [DecidableEq ν] (engine : Engine τ ν L)
  (schema : List (Column τ)) (admits : Row ν → Bool)

/-- `_conform`. -/
def conform (data : Incoming τ ν) : Option (List (Row ν)) :=
  if data.columns.any fun c : String × τ × List ν =>
      schema.all fun f : Column τ => engine.lower f.name ≠ engine.lower c.1 then none
  else (schema.mapM fun f : Column τ =>
      match data.columns.reverse.find? fun c : String × τ × List ν =>
          engine.lower c.1 = engine.lower f.name with
      | none => if f.nullable then some (List.replicate data.numRows engine.null) else none
      | some c =>
        if c.2.1 = f.type then some c.2.2 else (engine.cast c.2.1 f.type).bind c.2.2.mapM).map
    fun columns : List (List ν) => (List.range data.numRows).map fun k =>
      columns.map fun c : List ν => c.getD k engine.null

/-- The new rows of a replaceWhere, each of which has to satisfy its predicate. -/
def replacing (predicate : Row ν → Option Bool) (data : Incoming τ ν) : Option (List (Row ν)) :=
  (conform engine schema data).bind fun new =>
    if new.all (isTrue (some predicate)) then some new else none

/-- What a statement asks of `commit_dml`. -/
structure Asked (ν : Type) where
  affected : Nat
  deletions : List (Path × Finset Nat)
  whole : List Path
  data : Option (List (Row ν))
  deletions_nodup : (deletions.map Prod.fst).Nodup
  whole_nodup : whole.Nodup

variable {st : Storage (Row ν)} (c : Contents st)

/-- The positions of the live rows of a file that match. -/
def matchedAt (st : Storage (Row ν)) (m : Row ν → Bool) (f : AddFile) : Finset Nat :=
  (st.visible f).filter fun i => ((st.contents f.path)[i]?).any m

def deletions (m : Row ν → Bool) : List (Path × Finset Nat) :=
  ((files c.log).map fun f => (f.path, matchedAt st m f)).filter fun d => d.2 ≠ ∅

/-- The matched rows, as the scan returns them. -/
def matchedRows (m : Row ν → Bool) : List (Row ν) :=
  (files c.log).flatMap fun f => st.rowsAt f.path (matchedAt st m f)

/-- The data of a commit: none for no rows. -/
def dataOf (rows : List (Row ν)) : Option (List (Row ν)) := if rows = [] then none else some rows

def asked (m : Row ν → Bool) (data : Option (List (Row ν))) : Asked ν where
  affected := (matchedRows c m).length
  deletions := deletions c m
  whole := []
  data := data
  deletions_nodup := by
    have hpaths : ((files c.log).map fun f => (f.path, matchedAt st m f)).map Prod.fst =
        (files c.log).map AddFile.path := by
      rw [List.map_map]
      rfl
    have hnodup : (((files c.log).map fun f => (f.path, matchedAt st m f)).map Prod.fst).Nodup :=
      hpaths ▸ c.valid.nodup
    exact hnodup.sublist (List.filter_sublist.map _)
  whole_nodup := List.nodup_nil

def liveRecords (f : AddFile) : Option Int :=
  f.numRecords.map fun n : Nat =>
    (n : Int) - (f.deletionVector.map DeletionVector.cardinality).getD 0

/-- The live rows by the statistics; none where a file has none. -/
def liveCount (fs : List AddFile) : Option Int := (fs.mapM liveRecords).map List.sum

def everyFile (live : Int) : Asked ν where
  affected := live.toNat
  deletions := []
  whole := (files c.log).map AddFile.path
  data := none
  deletions_nodup := List.nodup_nil
  whole_nodup := c.valid.nodup

/-- `_delete_every_file`: none where rows have to be counted the slow way. -/
def deleteEveryFile : Option (Option (Asked ν)) :=
  (liveCount (files c.log)).map fun live => if live = 0 then none else some (everyFile c live)

/-- A DELETE of the rows that match. -/
def deleting (m : Row ν → Bool) : Option (Asked ν) :=
  if matchedRows c m = [] then none else some (asked c m none)

/-- `_dv_dml`, up to the commit: none where it fails, nothing where nothing is committed. -/
def dvDml : Statement τ ν L → Option (Option (Asked ν))
  | .delete none => (deleteEveryFile c).or (some (deleting c fun _ => true))
  | .delete (some p) => some (deleting c (isTrue (some p)))
  | .update p assignments =>
    if matchedRows c (isTrue p) = [] then some none
    else (assign engine schema assignments ((matchedRows c (isTrue p)).map fun r => (r, false))).map
      fun data => some (asked c (isTrue p) (some data))
  | .replaceWhere p data => (replacing engine schema p data).map fun new =>
    if matchedRows c (isTrue (some p)) = [] ∧ new = [] then none
    else some (asked c (isTrue (some p)) (dataOf new))

/-- The place of a file, above the bits of a row's position, in 64 bits. -/
def packedKey (paths : List Path) (path : Path) (row : Nat) : Nat :=
  (paths.idxOf path * 2 ^ 40 + row) % 2 ^ 64

def touchedPaths (deletions : List (Path × Finset Nat)) : List Path :=
  (deletions.map Prod.fst).dedup.insertionSort fun p q => p ≤ q

/-- Whether a position has the packed key of a deletion. -/
def isGone (deletions : List (Path × Finset Nat)) (path : Path) (row : Nat) : Bool :=
  deletions.any fun d =>
    packedKey (touchedPaths deletions) path row ∈
      d.2.image (packedKey (touchedPaths deletions) d.1)

/-- The rows of the touched files that are read back. -/
def readBack (deletions : List (Path × Finset Nat)) : List (Row ν) :=
  ((files c.log).filter fun f => f.path ∈ touchedPaths deletions).flatMap fun f =>
    st.rowsAt f.path ((st.visible f).filter fun i => !isGone deletions f.path i)

/-- `_as_file_rewrites`. -/
def asFileRewrites (a : Asked ν) : Asked ν where
  affected := a.affected
  deletions := []
  whole := (touchedPaths a.deletions ++ a.whole).dedup
  data := dataOf (readBack c a.deletions ++ a.data.getD [])
  deletions_nodup := List.nodup_nil
  whole_nodup := List.nodup_dedup _

def request (a : Asked ν) : Dml.Request where
  deletions := a.deletions
  wholeFiles := a.whole
  data := .batches (a.data.toList.map List.length)
  dataChange := true
  deletions_nodup := a.deletions_nodup
  wholeFiles_nodup := a.whole_nodup

/-- What a staged commit leaves. -/
def left (a : Asked ν) : Multiset (Row ν) :=
  ((files c.log).flatMap fun f =>
    st.rowsAt f.path (Dml.expected (request a) (st.scanFile f)) : List (Row ν)) +
    (a.data.getD [] : List (Row ν))

def commitDml (a : Asked ν) : Option (Nat × Multiset (Row ν)) :=
  match Dml.stage (st.scan c.log c.valid.nodup) (request a) with
  | .error _ => none
  | .ok _ => some (a.affected, left c a)

/-- `_commit_dv_changes`: `admits` is what the constraint check and the writer take of a row. -/
def commitDvChanges (dvPath : Bool) (a : Asked ν) : Option (Nat × Multiset (Row ν)) :=
  let a := if a.deletions ≠ [] ∧ dvPath = false then asFileRewrites c a else a
  if (a.data.getD []).all admits then commitDml c a else none

/-- The statement by `_dv_dml`: the rows affected and the rows left; none where it fails. -/
def byDml (dvPath : Bool) (statement : Statement τ ν L) : Option (Nat × Multiset (Row ν)) :=
  (dvDml engine schema c statement).bind fun plan =>
    plan.elim (some (0, st.bag (files c.log))) (commitDvChanges admits c dvPath)

def isComputed : SetValue L → Bool
  | .computed _ => true
  | _ => false

/-- The rows the SET list is computed over: the matched ones only if SQL is in it. -/
def seenRows (m : Row ν → Bool) (assignments : SetList L) (rows : List (Row ν)) : List (Row ν) :=
  if assignments.any fun a => isComputed a.2 then rows.filter m else rows

/-- `transform` of `_rewrite`: the new contents of the table. -/
def transformed (rows : List (Row ν)) : Statement τ ν L → Option (List (Row ν))
  | .delete p => some (rows.filter fun r => !isTrue p r)
  | .update p assignments =>
    if assignments.any fun a => isComputed a.2 then
      (assign engine schema assignments ((rows.filter (isTrue p)).map fun r => (r, false))).map
        fun updated => (rows.filter fun r => !isTrue p r) ++ updated
    else assign engine schema assignments (rows.map fun r => (r, !isTrue p r))
  | .replaceWhere p data => (replacing engine schema p data).map fun new =>
    (rows.filter fun r => !isTrue (some p) r) ++ new

/-- `_rewrite`. -/
def byTable (statement : Statement τ ν L) : Option (Nat × Multiset (Row ν)) :=
  let rows := st.rows (files c.log)
  let touched := (rows.filter statement.matches).length
  (transformed engine schema rows statement).bind fun replacement =>
    if touched = 0 ∧ replacement.length = rows.length then some (0, st.bag (files c.log))
    else if replacement.all admits then some (touched, (replacement : Multiset (Row ν)))
    else none

end

end DeltaSwamp.Rewrite
