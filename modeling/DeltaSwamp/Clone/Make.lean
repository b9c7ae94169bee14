import DeltaSwamp.Copying
import DeltaSwamp.Result
import DeltaSwamp.Table.Log

/-!
# CLONE

`_clone_refusal` and `KernelEngine.clone`, with `absolute_deletion_vector`,
`copy_objects` and `commit_raw`: the version 0 a clone of a path table commits.

The place a path of the log names, read from the root of a table; and the path
that names it from the root of another.
-/

namespace DeltaSwamp.Clone

open List

def isSchemeLetter (c : Char) : Bool := ('a' ≤ c && c ≤ 'z') || ('A' ≤ c && c ≤ 'Z')

def isSchemeChar (c : Char) : Bool :=
  Text.isAsciiAlphanumeric c || c = '+' || c = '-' || c = '.'

/-- Whether a reference starts with a scheme, and so is a URL by itself. -/
def hasScheme : Text → Bool
  | [] => false
  | c :: rest => isSchemeLetter c && (rest.dropWhile isSchemeChar).head? = some ':'

/-- Whether a reference names its place from the top of the store. -/
def fromTop (p : Text) : Bool := p.head? = some '/'

/-- `"://" in path`. -/
def spelledOut (p : Text) : Bool := Text.contains p "://".toList

/-- The URL of a table's directory: its scheme and authority, then its path. -/
structure TableRoot where
  origin : Text
  path : Text
  absolute : hasScheme origin = true
  spelled : spelledOut origin = true
  slash : path.head? = some '/'
  deriving DecidableEq

def TableRoot.text (root : TableRoot) : Text := root.origin ++ root.path

/-- `Url::join`, of a reference with no dot segments. -/
def join (root : TableRoot) (p : Text) : Text :=
  if hasScheme p then p else if fromTop p then root.origin ++ p else root.text ++ p

/-- A reference read against the root it stands under. -/
def Relative (p : Text) : Prop := hasScheme p = false ∧ fromTop p = false

section
variable {p : Text}

theorem join_relative (h : Relative p) (root : TableRoot) : join root p = root.text ++ p := by
  simp [join, h.1, h.2]

theorem join_scheme (h : hasScheme p = true) (root : TableRoot) : join root p = p := by
  simp [join, h]

theorem join_fromTop (hs : hasScheme p = false) (h : fromTop p = true) (root : TableRoot) :
    join root p = root.origin ++ p := by
  simp [join, hs, h]

theorem hasScheme_append (h : hasScheme p = true) (q : Text) : hasScheme (p ++ q) = true := by
  cases p with
  | nil => simp [hasScheme] at h
  | cons c rest =>
    simp only [hasScheme, Bool.and_eq_true, decide_eq_true_eq] at h
    simp only [cons_append, hasScheme, Bool.and_eq_true, decide_eq_true_eq]
    refine ⟨h.1, ?_⟩
    have hne : rest.dropWhile isSchemeChar ≠ [] := by
      intro hnil
      simp [hnil] at h
    rw [dropWhile_append]
    simp [hne, h.2]

variable (root target : TableRoot)

theorem hasScheme_text (p : Text) : hasScheme (root.text ++ p) = true := by
  rw [TableRoot.text, append_assoc]
  exact hasScheme_append root.absolute _

theorem join_text (p : Text) : join target (root.text ++ p) = root.text ++ p :=
  join_scheme (hasScheme_text root p) target

theorem text_ne_nil : root.text ≠ [] := by
  intro hnil
  have hpath := root.slash
  rw [(append_eq_nil_iff.mp hnil).2] at hpath
  simp at hpath

/-- A source path as the clone's add has it. -/
def absolutePath (p : Text) : Text := if spelledOut p then p else root.text ++ p

/-- The test for an absolute path tells the truth about `p`. -/
def ReadAsSpelled (p : Text) : Prop :=
  if spelledOut p then hasScheme p = true ∨ fromTop p = true ∧ root.origin = target.origin
  else Relative p

/-- From the clone's root, the rewritten path names the place the source's did
exactly when the test told the truth. -/
theorem join_absolutePath_iff (hroots : root.text ≠ target.text) (p : Text) :
    join target (absolutePath root p) = join root p ↔ ReadAsSpelled root target p := by
  unfold absolutePath ReadAsSpelled
  by_cases hspelled : spelledOut p = true
  · rw [if_pos hspelled, if_pos hspelled]
    by_cases hscheme : hasScheme p = true
    · simp [join_scheme hscheme, hscheme]
    · rw [Bool.not_eq_true] at hscheme
      by_cases htop : fromTop p = true
      · rw [join_fromTop hscheme htop, join_fromTop hscheme htop]
        simp [hscheme, htop, eq_comm]
      · rw [Bool.not_eq_true] at htop
        rw [join_relative ⟨hscheme, htop⟩, join_relative ⟨hscheme, htop⟩]
        simp [hscheme, htop, hroots.symm]
  · rw [if_neg hspelled, if_neg hspelled, join_text]
    constructor
    · intro h
      by_cases hscheme : hasScheme p = true
      · rw [join_scheme hscheme] at h
        have := append_left_eq_self.mp h
        exact absurd this (text_ne_nil root)
      · rw [Bool.not_eq_true] at hscheme
        by_cases htop : fromTop p = true
        · rw [join_fromTop hscheme htop, TableRoot.text, append_assoc,
            append_cancel_left_eq, append_left_eq_self] at h
          have hslash := root.slash
          rw [h] at hslash
          simp at hslash
        · rw [Bool.not_eq_true] at htop
          exact ⟨hscheme, htop⟩
    · intro h
      rw [join_relative h]

end

open Metadata

/-- The kernel's decoding of a relative vector's descriptor: the vector's path
under the table's root. -/
structure Vectors where
  name : Text → Option Text
  relative : ∀ {d n}, name d = some n → Relative n

def Vectors.nameOf (lib : Vectors) (v : Table.DeletionVector) : Option Text :=
  if v.storageType = "u".toList then lib.name v.pathOrInlineDv else none

/-- The paths of files and of their relative vectors, as the log names them. -/
def namedPaths (lib : Vectors) (files : List Table.AddFile) : List Text :=
  files.flatMap fun f => f.path :: (f.deletionVector.bind lib.nameOf).toList

/-- A `metaData` action. -/
structure MetaData extends Table.TableMetadata where
  name : Option String
  description : Option String
  createdTime : Option Int
  deriving DecidableEq

/-- A snapshot of the source: the log it was replayed from, and what else of it is read. -/
structure Snapshot (lib : Vectors) where
  root : TableRoot
  log : Table.Log
  protocol : Protocol
  metaData : MetaData
  /-- `domain_metadata(CLUSTERING_DOMAIN)`. -/
  clustering : Option String
  modified : Table.AddFile → Option Int
  protocol_inForce : Table.protocol log = some protocol
  metaData_inForce : Table.metadata log = some metaData.toTableMetadata
  /-- Every relative vector can be found. -/
  named : ∀ f ∈ Table.files log, ∀ v, f.deletionVector = some v →
    v.storageType = "u".toList → (lib.name v.pathOrInlineDv).isSome
  /-- A file is live once. -/
  distinct : ((Table.files log).map Table.AddFile.path).Nodup
  vectors_supported : (∃ f ∈ Table.files log, f.deletionVector ≠ none) →
    "deletionVectors" ∈ protocol.writerFeatures.getD []
  clustering_supported : clustering ≠ none → "domainMetadata" ∈ protocol.writerFeatures.getD []
  /-- What is at one place has one name. -/
  oneName : ∀ p ∈ namedPaths lib (Table.files log), ∀ q ∈ namedPaths lib (Table.files log),
    join root p = join root q → p = q

def Snapshot.files {lib : Vectors} (source : Snapshot lib) : List Table.AddFile :=
  Table.files source.log

/-- A CLONE target, as `is_storage_path` tells them apart. -/
inductive Target where
  | catalog (name : Text)
  | storage (root : TableRoot)

/-- What the resolved table says, apart from its snapshots. -/
structure ResolvedTable where
  features : List String
  effectiveWriterFeatures : List String
  isCatalogManaged : Bool
  hasCredentialProvider : Bool
  isShallowClone : Bool

inductive Refusal where
  | catalogTarget
  | replaceIntoPath
  | tracksRowIds
  | blocked (features : List String)
  | scopedCredentials
  | contradictory
  | exists (version : Nat)
  | foreignFiles
  | badVector
  | missingObject
  /-- The put found version 0 there. -/
  | versionTaken
  | gap
  deriving DecidableEq

/-- `_CLONE_BLOCKERS`, sorted. -/
def cloneBlockers : List String := ["catalogManaged", "catalogOwned-preview", "rowTracking"]

/-- `_clone_refusal`. -/
def cloneRefusal (table : ResolvedTable) (target : Target) (shallow replace : Bool) :
    Option Refusal :=
  match target with
  | .catalog _ => some .catalogTarget
  | .storage _ =>
    if replace then some .replaceIntoPath
    else
      let found := cloneBlockers.filter fun f =>
        f ∈ table.features ∨ f ∈ table.effectiveWriterFeatures
      let blockers := if table.isCatalogManaged ∧ "catalogManaged" ∉ found then
        found ++ ["catalogManaged"] else found
      if blockers = ["rowTracking"] then some .tracksRowIds
      else if blockers ≠ [] then some (.blocked blockers)
      else if shallow ∧ (table.hasCredentialProvider ∨ table.isShallowClone) then
        some .scopedCredentials
      else none

structure Add extends Table.AddFile where
  modificationTime : Int
  deriving DecidableEq

structure CommitInfo where
  timestamp : Int
  operation : String
  operationParameters : List (String × Text)
  isBlindAppend : Bool
  txnId : String
  inCommitTimestamp : Option Int
  deriving DecidableEq

inductive Action where
  | commitInfo (info : CommitInfo)
  | protocol (protocol : Protocol)
  | metaData (metadata : MetaData)
  | domainMetadata (domain configuration : String) (removed : Bool)
  | add (file : Add)
  deriving DecidableEq

def Action.add? : Action → Option Add
  | .add file => some file
  | _ => none

def Action.commitInfo? : Action → Option CommitInfo
  | .commitInfo info => some info
  | _ => none

def Action.protocol? : Action → Option Protocol
  | .protocol p => some p
  | _ => none

def Action.metaData? : Action → Option MetaData
  | .metaData m => some m
  | _ => none

def clusteringDomain : String := "delta.clustering"

/-- What an action says of the clustering domain. -/
def Action.clustering? : Action → Option (Option String)
  | .domainMetadata domain configuration removed =>
    if domain = clusteringDomain then some (if removed then none else some configuration)
    else none
  | _ => none

/-- What the replay of a log takes from a commit. -/
def entry (actions : List Action) : Table.Entry where
  adds := (actions.filterMap Action.add?).map Add.toAddFile
  removes := []
  metaData := ((actions.filterMap Action.metaData?).map MetaData.toTableMetadata).getLast?
  protocol := (actions.filterMap Action.protocol?).getLast?
  txns := []
  commitInfo := none

/-- The clustering domain's configuration after a commit. -/
def clusteringOf (actions : List Action) : Option String :=
  (actions.filterMap Action.clustering?).getLast?.join

section
variable (lib : Vectors) (root : TableRoot)

/-- `absolute_deletion_vector`: a relative vector by its full URL, another as it is. -/
def absoluteDeletionVector (v : Table.DeletionVector) : Except Refusal Table.DeletionVector :=
  if v.storageType = "u".toList then
    match lib.name v.pathOrInlineDv with
    | some name => .ok { v with storageType := "p".toList, pathOrInlineDv := join root name }
    | none => .error .badVector
  else .ok v

/-- The vector a clone's add carries. -/
def clonedVector (shallow : Bool) :
    Option Table.DeletionVector → Except Refusal (Option Table.DeletionVector)
  | none => .ok none
  | some v => if shallow then (absoluteDeletionVector lib root v).map some else .ok (some v)

/-- The vector file a deep clone copies for a file, relative to the root. -/
def copiedVector (shallow : Bool) : Option Table.DeletionVector → Except Refusal (List Text)
  | none => .ok []
  | some v =>
    if shallow = false ∧ v.storageType = "u".toList then
      (absoluteDeletionVector lib root v).map fun a => [a.pathOrInlineDv.drop root.text.length]
    else .ok []

/-- One listed file: its add, and what of it is to be copied. -/
def cloneFile (shallow : Bool) (now : Int) (modified : Option Int) (f : Table.AddFile) :
    Except Refusal (Add × List Text) := do
  let deletionVector ← clonedVector lib root shallow f.deletionVector
  let vectors ← copiedVector lib root shallow f.deletionVector
  .ok ({
    path := if shallow then absolutePath root f.path else f.path
    partitionValues := f.partitionValues
    size := f.size
    -- `f["modification_time"] or now`
    modificationTime := if modified.getD 0 = 0 then now else modified.getD 0
    dataChange := true
    stats := f.stats
    numRecords := f.numRecords
    tags := []
    deletionVector := deletionVector
    baseRowId := none
    defaultRowCommitVersion := none }, (if shallow then [] else [f.path]) ++ vectors)

end

/-- `sorted(set(copies))`. -/
def sortedCopies (copies : List Text) : List Text := copies.dedup.insertionSort (· ≤ ·)

/-- Where `copy_objects` reads and writes. -/
def moves (source target : TableRoot) (paths : List Text) : List (Text × Text) :=
  paths.map fun p => (join source p, join target p)

/-- What is stored: objects by their URL, the commits of a table by its root, and
the version of a table that can be opened. -/
structure World (β : Type) where
  objects : Copying.Objects Text β
  commits : Text → Nat → Option (List Action)
  latest : Text → Option Nat

variable {β : Type}

/-- `commit_raw`: a put-if-absent of a version's file, with its predecessor there. -/
def commitRaw (w : World β) (root : Text) (version : Nat) (actions : List Action) :
    Except Refusal (World β) :=
  if 0 < version ∧ (w.commits root (version - 1)).isNone then .error .gap
  else if (w.commits root version).isSome then .error .versionTaken
  else .ok { w with
    commits := Function.update w.commits root
      (Function.update (w.commits root) version (some actions)) }

/-- What a clone draws: the clock, and two uuids. -/
structure Draws where
  now : Int
  id : String
  txnId : String

section
variable {lib : Vectors} (source : Snapshot lib) (shallow : Bool) (draws : Draws)

def cloneInfo : CommitInfo where
  timestamp := draws.now
  operation := "CLONE"
  operationParameters :=
    [("source", (source.root.text.reverse.dropWhile (· = '/')).reverse),
      ("sourceVersion", Nat.toDigits 10 (Table.version source.log)),
      ("isShallow", if shallow then "true".toList else "false".toList)]
  isBlindAppend := false
  txnId := draws.txnId
  inCommitTimestamp := none

/-- The source's metadata under a new id. -/
def clonedMetaData : MetaData :=
  { source.metaData with id := draws.id, createdTime := some draws.now }

/-- The commit's actions. -/
def cloneActions (adds : List Add) : List Action :=
  [.commitInfo (cloneInfo source shallow draws), .protocol source.protocol,
    .metaData (clonedMetaData source draws)] ++
  (source.clustering.map fun configuration =>
    Action.domainMetadata clusteringDomain configuration false).toList ++
  adds.map Action.add

inductive Outcome where
  /-- `if_not_exists`, and there was one. -/
  | kept
  | cloned
  deriving DecidableEq

/-- What `clone` does once the target is known to be free. -/
def cloneInto (target : TableRoot) (w : World β) : Except Refusal (World β) := do
  if shallow = false ∧ source.files.any (fun f => spelledOut f.path) then .error .foreignFiles
  let cloned ← source.files.mapM fun f =>
    cloneFile lib source.root shallow draws.now (source.modified f) f
  let copies := cloned.flatMap Prod.snd
  match Copying.copyAll (moves source.root target (sortedCopies copies)) w.objects with
  | none => .error .missingObject
  | some objects =>
    commitRaw { w with objects := objects } target.text 0
      (cloneActions source shallow draws (cloned.map Prod.fst))

/-- `clone`. -/
def clone (table : ResolvedTable) (target : Target) (replace ifNotExists : Bool) (w : World β) :
    Except Refusal (World β × Outcome) :=
  match cloneRefusal table target shallow replace, target with
  | some refusal, _ => .error refusal
  | none, .catalog _ => .error .catalogTarget
  | none, .storage root =>
    if replace ∧ ifNotExists then .error .contradictory
    else
      match w.latest root.text with
      | some version => if ifNotExists then .ok (w, .kept) else .error (.exists version)
      | none => (cloneInto source shallow draws root w).map fun w' => (w', .cloned)

end

end DeltaSwamp.Clone
