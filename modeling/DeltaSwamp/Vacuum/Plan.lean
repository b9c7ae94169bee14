import Mathlib.Data.List.ReduceOption
import DeltaSwamp.Commit.Error
import DeltaSwamp.Result

/-!
# The plan of a VACUUM

`plan` of `vacuum.rs`: the files a table still references, by their keys in the
object store, and the files of its directory (or, for VACUUM LITE, those that
expired removes name) that are not among them.
-/

namespace DeltaSwamp.Vacuum

open Commit (NativeError)

structure Url where
  scheme : Text
  host : Option Text
  port : Option Nat
  username : Text
  path : Text
  deriving DecidableEq, Repr

/-- A deletion-vector descriptor: what its JSON or its row holds of each field. -/
structure Descriptor where
  storageType : Option Text
  pathOrInlineDv : Option Text
  offset : Option Int
  sizeInBytes : Option Int
  cardinality : Option Int
  deriving DecidableEq, Repr

/-- What parsing a path as a URL answers. -/
inductive Parsed where
  | ok (url : Url)
  | relativeWithoutBase
  | error (shown : Text)

/-- The libraries the plan goes through. -/
structure Library where
  /-- `percent_decode_str`, then UTF-8 with replacement characters -/
  decode : Text → Text
  /-- `str::to_lowercase`: the case of a final sigma goes by its place -/
  lower : Text → Text
  parseUrl : Text → Parsed
  join : Url → Text → Except NativeError Url
  /-- `Path::from_url_path`: the parts of the location in the store's own spelling -/
  fromUrlPath : Text → Except NativeError (List Text)
  /-- a descriptor's JSON, and how it is shown -/
  parseDescriptor : Text → Except Text (Descriptor × Text)
  /-- the kernel's `absolute_path` of a descriptor, `none` for an inline vector:
  storage type, path or inline vector, offset, size, cardinality -/
  vectorUrl : Url → Text → Text → Option Int → Int → Int → Except NativeError (Option Url)
  /-- the string at `cdc.path` of a line that parses as JSON -/
  cdcPath : Text → Option Text

structure LiveFile where
  path : Text
  deletionVector : Option Text
  deriving DecidableEq, Repr

/-- A row of the log's `remove` column. -/
structure RemoveRow where
  path : Option Text
  deletionTimestamp : Option Int
  deletionVector : Option Descriptor
  deriving DecidableEq, Repr

structure CommitFile where
  version : Version
  lastModified : Int
  lines : Except NativeError (List Text)

structure ObjectMeta where
  location : List Text
  size : Nat
  lastModified : Int
  deriving DecidableEq, Repr

/-- A table as a VACUUM finds it. -/
structure Table where
  lib : Library
  root : Url
  live : Except NativeError (List LiveFile)
  /-- the removes of the log segment, checkpoint and commits -/
  removes : Except NativeError (List RemoveRow)
  /-- the commit files of the log, oldest first -/
  commits : List CommitFile
  /-- the version of the checkpoint the log segment starts from -/
  checkpoint : Option Version
  listing : Except NativeError (List ObjectMeta)
  /-- size and modification time of the object at a key, `none` if there is none -/
  head : Text → Except NativeError (Option (Nat × Int))

structure Candidate where
  key : Text
  path : Text
  size : Nat
  modifiedMs : Int
  deriving DecidableEq, Repr

/-- The parts of a path between slashes. -/
def segments : Text → List Text
  | [] => [[]]
  | c :: rest =>
    if c = '/' then [] :: segments rest
    else match segments rest with
      | part :: parts => (c :: part) :: parts
      | [] => [[c]]

def joinParts (parts : List Text) : Text := List.intercalate ['/'] parts

def isParent (segment : Text) : Bool :=
  segment = "..".toList || segment.map Char.toLower = "%2e%2e".toList

/-- `confine::is_under` -/
def isUnder (root location : Url) : Bool :=
  let base := if ['/'].isSuffixOf root.path then root.path else root.path ++ ['/']
  (location.scheme = root.scheme && location.host = root.host && location.port = root.port &&
    location.username = root.username) &&
  !(segments location.path).any isParent && base.isPrefixOf location.path

section
variable (t : Table)

def lower (text : Text) : Text := t.lib.lower text

/-- `store_key`: the key under the root, in the object store's spelling. -/
def storeKey (rootPath : List Text) (url : Url) : Option Text := do
  let parts ← (t.lib.fromUrlPath url.path).toOption
  let below ← parts.dropPrefix? rootPath
  if below = [] then none else some (joinParts below)

/-- `decoded_key`: the key under the root, percent-decoded. -/
def decodedKey (url : Url) : Option Text := do
  let base := (t.lib.decode t.root.path).reverse.dropWhile (· = '/') |>.reverse
  let rest ← (t.lib.decode url.path).dropPrefix? base
  let rest ← rest.dropPrefix? ['/']
  if rest = [] then none else some rest

/-- `resolve`: a path from the log as a URL. -/
def resolve (path : Text) : Except NativeError Url :=
  match t.lib.parseUrl path with
  | .ok url => .ok url
  | .relativeWithoutBase => t.lib.join t.root path
  | .error shown => .error (.url shown)

/-- The keys one URL is recorded under: none if it lies outside the root. -/
def spellings (rootPath : List Text) (url : Url) : List Text :=
  if isUnder t.root url then
    [storeKey t rootPath url, decodedKey t url].reduceOption.map (lower t)
  else []

/-- `Referenced::contains` -/
def contains (keys : List Text) (key : Text) : Bool :=
  keys.contains (lower t key) || keys.contains (lower t (t.lib.decode key))

/-- The URL a vector's descriptor names, its missing numbers read as zero. -/
def descriptorUrl (kind path : Text) (dv : Descriptor) : Except NativeError (Option Url) :=
  t.lib.vectorUrl t.root kind path (dv.offset.map fun o => o.bmod (2 ^ 32))
    ((dv.sizeInBytes.getD 0).bmod (2 ^ 32)) (dv.cardinality.getD 0)

/-- `deletion_vector_url_json` -/
def vectorUrlJson (json : Text) : Except NativeError (Option Url) :=
  match t.lib.parseDescriptor json with
  | .error e => .error (.invalid ("bad deletion vector JSON: ".toList ++ e))
  | .ok (dv, shown) =>
    match dv.storageType, dv.pathOrInlineDv with
    | some kind, some path => descriptorUrl t kind path dv
    | _, _ => .error (.invalid
        ("a deletion vector descriptor without storageType or pathOrInlineDv: ".toList ++ shown))

/-- `struct_dv_url`: the vector of a row, if it has one. -/
def vectorUrlRow : Option Descriptor → Except NativeError (Option Url)
  | none => .ok none
  | some dv =>
    match dv.storageType, dv.pathOrInlineDv with
    | some kind, some path => descriptorUrl t kind path dv
    | _, _ => .ok none

/-- The URLs of a live file: its own and its vector's. -/
def liveUrls (file : LiveFile) : Except NativeError (List Url) := do
  let url ← resolve t file.path
  match file.deletionVector with
  | none => return [url]
  | some json =>
    let vector ← vectorUrlJson t json
    return url :: vector.toList

structure Tombstone where
  file : Url
  vector : Option Url
  deletedMs : Int
  deriving DecidableEq, Repr

/-- One row of the `remove` column; a row without a timestamp protects nothing. -/
def tombstone (row : RemoveRow) : Except NativeError (Option Tombstone) :=
  match row.path with
  | none => .ok none
  | some path => do
    let file ← resolve t path
    let vector ← vectorUrlRow t row.deletionVector
    return some ⟨file, vector, row.deletionTimestamp.getD 0⟩

def tombstones : Except NativeError (List Tombstone) := do
  let rows ← (← t.removes).mapM (tombstone t)
  return rows.reduceOption

def Tombstone.urls (s : Tombstone) : List Url := s.file :: s.vector.toList

/-- The commit files of the log segment. -/
def segmentCommits : List CommitFile :=
  t.commits.filter fun c => t.checkpoint.all (· < c.version)

/-- The textual pre-filter of a commit's lines. -/
def mentionsCdc (line : Text) : Bool := Text.contains line "\"cdc\":".toList

/-- `recent_change_data` -/
def recentChangeData (cutoff : Int) : Except NativeError (List Url) := do
  let recent := (segmentCommits t).filter fun c => cutoff ≤ c.lastModified
  let lines ← recent.mapM fun c => c.lines
  let paths := (lines.flatten.filter mentionsCdc).filterMap t.lib.cdcPath
  paths.mapM (resolve t)

/-- `hidden`: whether one name in a path hides it. -/
def hidden (name : Text) (partitionColumns : List Text) : Bool :=
  name = "metadata".toList ||
  ((['_'].isPrefixOf name || ['.'].isPrefixOf name) &&
    !"_delta_index".toList.isPrefixOf name && !"_change_data".toList.isPrefixOf name &&
    !partitionColumns.any fun column => (column ++ ['=']).isPrefixOf name)

def shown (key : Text) : Text := if t.root.scheme = "file".toList then t.lib.decode key else key

/-- The keys not seen before, in order. -/
def unseen (seen : List Text) : List Text → List Text
  | [] => []
  | key :: keys =>
    if seen.contains key then unseen seen keys else key :: unseen (key :: seen) keys

/-- The keys VACUUM LITE asks the store about. -/
def wanted (rootPath referenced : List Text) (expired : List Tombstone) : List Text :=
  let under := (expired.flatMap Tombstone.urls).filter (isUnder t.root)
  unseen [] ((under.filterMap (storeKey t rootPath)).filter fun key => !contains t referenced key)

def headCandidate (key : Text) : Except NativeError (Option Candidate) := do
  match ← t.head key with
  | none => return none
  | some (size, modified) => return some ⟨key, shown t key, size, modified⟩

/-- What the listing of one object makes a full VACUUM delete. -/
def listedCandidate (rootPath referenced : List Text) (cutoff : Int)
    (partitionColumns : List Text) (object : ObjectMeta) : Option Candidate := do
  let parts ← object.location.dropPrefix? rootPath
  if parts = [] || parts.any fun part => hidden (t.lib.decode part) partitionColumns then none
  else
    let key := joinParts parts
    if cutoff ≤ object.lastModified || contains t referenced key then none
    else some ⟨key, shown t key, object.size, object.lastModified⟩

def sortByPath (candidates : List Candidate) : List Candidate :=
  candidates.insertionSort fun a b => ¬ b.path < a.path

/-- The URLs that keep their files: of live files, of removes that are not
expired, and of recent change data; and the removes that are. -/
def references (cutoff : Int) : Except NativeError (List Url × List Tombstone) := do
  let live ← (← t.live).mapM (liveUrls t)
  let tombstones ← tombstones t
  let changeData ← recentChangeData t cutoff
  let (kept, expired) := tombstones.partition fun s => cutoff ≤ s.deletedMs
  return (live.flatten ++ kept.flatMap Tombstone.urls ++ changeData, expired)

/-- `plan` -/
def plan (cutoff : Int) (lite : Bool) (partitionColumns : List Text) :
    Except NativeError (List Candidate) := do
  let rootPath ← t.lib.fromUrlPath t.root.path
  let (urls, expired) ← references t cutoff
  let referenced := urls.flatMap (spellings t rootPath)
  if lite then
    let heads ← (wanted t rootPath referenced expired).mapM (headCandidate t)
    return sortByPath heads.reduceOption
  else
    let listed ← t.listing
    return sortByPath
      (listed.filterMap (listedCandidate t rootPath referenced cutoff partitionColumns))

end

end DeltaSwamp.Vacuum
