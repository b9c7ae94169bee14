import DeltaSwamp.Metadata.State
import DeltaSwamp.Text

/-!
# The log of a table

A table as the list of its commits, and what a snapshot of it says: the live
files, the protocol and metadata in force, and the transactions recorded.
-/

namespace DeltaSwamp.Table

open Metadata List

abbrev Path := Text

/-- A deletion vector's descriptor. -/
structure DeletionVector where
  storageType : Text
  pathOrInlineDv : Text
  offset : Option Nat
  sizeInBytes : Nat
  cardinality : Nat
  deriving DecidableEq

/-- The columns of a data file's `add`. -/
structure AddFile where
  path : Path
  partitionValues : List (String × Option String)
  size : Nat
  dataChange : Bool
  /-- The statistics, with the `numRecords` they give. -/
  stats : Option Text
  numRecords : Option Nat
  tags : List (String × String)
  deletionVector : Option DeletionVector
  baseRowId : Option Int
  defaultRowCommitVersion : Option Int
  deriving DecidableEq

/-- What tells one logical file from another: its path and its vector. -/
abbrev FileKey := Path × Option Text

instance : LawfulBEq FileKey := inferInstance

def DeletionVector.uniqueId (v : DeletionVector) : Text :=
  v.storageType ++ v.pathOrInlineDv ++ v.offset.elim [] fun n => '@' :: Nat.toDigits 10 n

def AddFile.key (f : AddFile) : FileKey := (f.path, f.deletionVector.map DeletionVector.uniqueId)

structure TableMetadata where
  id : String
  schemaString : String
  partitionColumns : List String
  configuration : Config
  deriving DecidableEq

/-- One commit of the log. -/
structure Entry where
  adds : List AddFile
  removes : List FileKey
  metaData : Option TableMetadata
  protocol : Option Protocol
  txns : List (Text × Int)
  commitInfo : Option Json
  deriving DecidableEq

/-- The commits of a table, version 0 first; also a snapshot, as those it was replayed from. -/
abbrev Log := List Entry

def version (snapshot : Log) : Nat := snapshot.length - 1

/-- The live files after one more commit. -/
def reconcile (files : List AddFile) (entry : Entry) : List AddFile :=
  files.filter (fun f => f.key ∉ entry.removes ∧ f.key ∉ entry.adds.map AddFile.key) ++ entry.adds

def files (snapshot : Log) : List AddFile := snapshot.foldl reconcile []

def metadata (snapshot : Log) : Option TableMetadata :=
  (snapshot.filterMap Entry.metaData).getLast?

def protocol (snapshot : Log) : Option Protocol := (snapshot.filterMap Entry.protocol).getLast?

def tableProperties (snapshot : Log) : Config := ((metadata snapshot).map (·.configuration)).getD []

/-- `app_id_version`: the version last recorded for an application. -/
def appIdVersion (snapshot : Log) (app : Text) : Option Int :=
  ((snapshot.flatMap Entry.txns).filter fun t => t.1 = app).getLast?.map Prod.snd

/-- The check every path makes of a transaction: its version or a later one is recorded. -/
def records (snapshot : Log) (txn : Text × Int) : Bool :=
  (appIdVersion snapshot txn.1).any fun last => txn.2 ≤ last

/-- Whether two dictionaries are equal, whatever the order of their keys. -/
def sameConfiguration (a b : Config) : Bool :=
  (a ++ b).all fun e => a.get e.1 = b.get e.1

/-- `_same_json`, of two `metaData` actions. -/
def TableMetadata.same (a b : TableMetadata) : Bool :=
  a.id = b.id && a.schemaString = b.schemaString && a.partitionColumns = b.partitionColumns &&
    sameConfiguration a.configuration b.configuration

def sameMetadata : Option TableMetadata → Option TableMetadata → Bool
  | some a, some b => a.same b
  | none, none => true
  | _, _ => false

/-- Equal as maps. -/
theorem sameConfiguration_iff {a b : Config} :
    sameConfiguration a b = true ↔ ∀ key, a.get key = b.get key := by
  simp only [sameConfiguration, all_eq_true, mem_append, decide_eq_true_eq]
  constructor
  · intro h key
    by_cases ha : a.get key = none
    · by_cases hb : b.get key = none
      · rw [ha, hb]
      · rw [Config.get_eq_none_iff] at hb
        push Not at hb
        obtain ⟨e, he, rfl⟩ := hb
        exact h e (.inr he)
    · rw [Config.get_eq_none_iff] at ha
      push Not at ha
      obtain ⟨e, he, rfl⟩ := ha
      exact h e (.inl he)
  · intro h e _
    exact h e.1

theorem files_append (log : Log) (entry : Entry) :
    files (log ++ [entry]) = reconcile (files log) entry := by
  simp [files]

theorem mem_reconcile {fs : List AddFile} {entry : Entry} {f : AddFile} :
    f ∈ reconcile fs entry ↔
      (f ∈ fs ∧ f.key ∉ entry.removes ∧ f.key ∉ entry.adds.map AddFile.key) ∨ f ∈ entry.adds := by
  simp [reconcile, mem_filter]

theorem find_path {fs : List AddFile} (h : (fs.map AddFile.path).Nodup) {f : AddFile}
    (hf : f ∈ fs) : fs.find? (fun g => g.path = f.path) = some f := by
  induction fs with
  | nil => cases hf
  | cons g fs ih =>
    rw [map_cons, nodup_cons] at h
    rcases mem_cons.mp hf with rfl | hf
    · simp
    · have hne : g.path ≠ f.path := fun heq => h.1 (heq ▸ mem_map_of_mem hf)
      rw [List.find?_cons_of_neg (by simpa using hne)]
      exact ih h.2 hf

/-- The rows of every data file, and the row indexes of every vector. -/
structure Storage (ρ : Type) where
  contents : Path → List ρ
  hidden : DeletionVector → Finset Nat

variable {ρ : Type}

namespace Storage

variable (st : Storage ρ)

def count (path : Path) : Nat := (st.contents path).length

/-- The row indexes a file's vector hides. -/
def hiddenRows (f : AddFile) : Finset Nat := (f.deletionVector.map st.hidden).getD ∅

/-- The rows of a file at the indexes given. -/
def rowsAt (path : Path) (shown : Finset Nat) : List ρ :=
  ((st.contents path).zipIdx.filter fun r => r.2 ∈ shown).map Prod.fst

def visible (f : AddFile) : Finset Nat := Finset.range (st.count f.path) \ st.hiddenRows f

def liveRows (f : AddFile) : List ρ := st.rowsAt f.path (st.visible f)

/-- The rows of the files, in their order. -/
def rows (fs : List AddFile) : List ρ := fs.flatMap st.liveRows

/-- The bag of rows of a table with the live files given. -/
def bag (fs : List AddFile) : Multiset ρ := st.rows fs

/-- A file's statistics and vector are true of it. -/
structure Describes (f : AddFile) : Prop where
  numRecords : ∀ n ∈ f.numRecords, n = st.count f.path
  hidden : st.hiddenRows f ⊆ Finset.range (st.count f.path)

instance (f : AddFile) : Decidable (st.Describes f) :=
  decidable_of_iff ((∀ n ∈ f.numRecords, n = st.count f.path) ∧
      st.hiddenRows f ⊆ Finset.range (st.count f.path))
    ⟨fun h => ⟨h.1, h.2⟩, fun h => ⟨h.1, h.2⟩⟩

/-- A table lists no path twice, and every file's statistics and vector are true. -/
structure Valid (log : Log) : Prop where
  nodup : ((files log).map AddFile.path).Nodup
  describes : ∀ f ∈ files log, st.Describes f

instance (log : Log) : Decidable (st.Valid log) :=
  decidable_of_iff (((files log).map AddFile.path).Nodup ∧ ∀ f ∈ files log, st.Describes f)
    ⟨fun h => ⟨h.1, h.2⟩, fun h => ⟨h.1, h.2⟩⟩

variable {st}

theorem bag_append (fs gs : List AddFile) : st.bag (fs ++ gs) = st.bag fs + st.bag gs := by
  simp [bag, rows]

theorem bag_perm {fs gs : List AddFile} (h : fs.Perm gs) : st.bag fs = st.bag gs :=
  Multiset.coe_eq_coe.mpr (h.flatMap_right _)

theorem bag_filter (fs : List AddFile) (p : AddFile → Bool) :
    st.bag (fs.filter p) + st.bag (fs.filter fun f => !p f) = st.bag fs := by
  rw [← bag_append]
  exact bag_perm (filter_append_perm p fs)

theorem rowsAt_all (path : Path) : st.rowsAt path (Finset.range (st.count path)) =
    st.contents path := by
  have hall : ((st.contents path).zipIdx.filter fun r => r.2 ∈ Finset.range (st.count path)) =
      (st.contents path).zipIdx := by
    rw [filter_eq_self]
    intro r hr
    have hlt := (mem_zipIdx' hr).1
    simpa [count] using hlt
  rw [rowsAt, hall, zipIdx_map_fst]

theorem rowsAt_empty (path : Path) : st.rowsAt path ∅ = [] := by
  simp [rowsAt]

theorem liveRows_plain {f : AddFile} (h : f.deletionVector = none) :
    st.liveRows f = st.contents f.path := by
  have hhidden : st.hiddenRows f = ∅ := by simp [hiddenRows, h]
  rw [liveRows, visible, hhidden, Finset.sdiff_empty, rowsAt_all]

end Storage

variable {st : Storage ρ}

/-- Every version of the log is a valid table. -/
def ValidLog (st : Storage ρ) (log : Log) : Prop := ∀ n, st.Valid (log.take n)

instance (log : Log) : Decidable (ValidLog st log) :=
  decidable_of_iff (∀ n < log.length + 1, st.Valid (log.take n)) (by
    constructor
    · intro h n
      by_cases hn : n < log.length + 1
      · exact h n hn
      · have hwhole := h log.length (by omega)
        rw [take_length] at hwhole
        rw [take_of_length_le (by omega)]
        exact hwhole
    · exact fun h n _ => h n)

theorem ValidLog.append {log : Log} {entry : Entry} (h : ValidLog st log)
    (hvalid : st.Valid (log ++ [entry])) : ValidLog st (log ++ [entry]) := by
  intro n
  by_cases hn : n ≤ log.length
  · rw [take_append_of_le_length hn]
    exact h n
  · have hlen : (log ++ [entry]).length ≤ n := by simp; omega
    rw [take_of_length_le hlen]
    exact hvalid

theorem ValidLog.whole {log : Log} (h : ValidLog st log) : st.Valid log := by
  have hwhole := h log.length
  rwa [take_length] at hwhole

end DeltaSwamp.Table
