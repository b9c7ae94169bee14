import DeltaSwamp.Dict
import DeltaSwamp.Run

/-!
# Snapshot calls

`KernelEngine.snapshot` against storage that other writers change: the calls of
one process, each a sequence of storage requests, over the snapshots they keep.
-/

namespace DeltaSwamp.Snapshots

/-- A table's location, and the fingerprint of the store it is reached through. -/
structure Place where
  location : String
  store : String
  deriving DecidableEq

/-- What a listing reports of a file. -/
structure FileMeta where
  size : Nat
  lastModified : Int
  deriving DecidableEq

/-- A commit file, as one write of it left it; no two writes at a store are the same. -/
structure CommitFile where
  content : String
  listing : FileMeta
  written : Nat
  deriving DecidableEq

/-- The store's answers about a file: whether it is a local one, and its strong change token. -/
structure Stores (Token : Type) where
  isFile : Place → Bool
  identity : Place → CommitFile → Option Token

/-- A token tells one write of a file from every other. -/
def Stores.Strong {Token : Type} (stores : Stores Token) : Prop :=
  ∀ place f g t, stores.identity place f = some t → stores.identity place g = some t → f = g

/-- A snapshot: the commits it replays, and its latest commit file as the listing reported it. -/
structure Snapshot where
  commits : List CommitFile
  latestCommitFile : FileMeta
  deriving DecidableEq

def Snapshot.version (snapshot : Snapshot) : Nat := snapshot.commits.length - 1

section
variable {Token : Type} [DecidableEq Token]

/-- What the log listing reported of a file still is so of another. -/
def Stores.unchanged (stores : Stores Token) (place : Place) (listed now : FileMeta) : Bool :=
  decide (now.size = listed.size) &&
    (stores.isFile place || decide (now.lastModified = listed.lastModified))

def commitIdentity (stores : Stores Token) (place : Place) (log : List CommitFile)
    (snapshot : Snapshot) : Option Token :=
  match log[snapshot.version]? with
  | none => none
  | some file =>
    if stores.unchanged place snapshot.latestCommitFile file.listing then
      stores.identity place file
    else none

/-- A native snapshot: with the identity recorded for the commit file it ends at. -/
structure Held (Token : Type) where
  snapshot : Snapshot
  identity : Option Token
  deriving DecidableEq

/-- An entry of a catalog's commit tail. -/
structure TailEntry where
  version : Nat
  path : String
  timestamp : Int
  size : Nat
  deriving DecidableEq

structure Tail where
  logTail : List TailEntry
  maxCatalogVersion : Option Nat
  deriving DecidableEq

/-- The table a call was given, and its arguments; `fresh` is `write` where it is not given. -/
structure Asked where
  place : Place
  tableId : Option String
  isCatalogManaged : Bool
  tail : Tail
  version : Option Nat
  fresh : Bool
  deriving DecidableEq

/-- `max_catalog_version or -1`, where 0 counts as none. -/
def Tail.bound (tail : Tail) : Int :=
  match tail.maxCatalogVersion with
  | none | some 0 => -1
  | some version => version

/-- The tails the process has re-read, by location and table id. -/
abbrev Tails := Dict (String × Option String) Tail

def latestTail (tails : Tails) (asked : Asked) : Asked :=
  if asked.isCatalogManaged then
    match tails.get (asked.place.location, asked.tableId) with
    | none => asked
    | some known =>
      if known.bound ≤ asked.tail.bound then asked else { asked with tail := known }
  else asked

/-- The table a call goes on with. -/
def Asked.withTail (tails : Tails) (asked : Asked) : Asked :=
  match asked.version with
  | none => latestTail tails asked
  | some version => if (version : Int) > asked.tail.bound then latestTail tails asked else asked

namespace Asked

def cacheable (asked : Asked) : Bool :=
  decide (asked.tail.logTail = []) && decide (asked.tail.maxCatalogVersion = none)

def reuse (asked : Asked) : Bool := asked.cacheable && !asked.fresh

def byTail (asked : Asked) : Bool :=
  !asked.cacheable && asked.tableId.isSome && asked.tail.maxCatalogVersion.isSome

end Asked

/-- What a snapshot is kept under. -/
structure Key where
  place : Place
  version : Option Nat
  tableId : Option String
  tail : Option Tail
  deriving DecidableEq

def Asked.key (asked : Asked) : Key where
  place := asked.place
  version := asked.version
  tableId := asked.tableId
  tail := if asked.byTail then some asked.tail else none

/-- How many commits of a log a build takes: to the version asked for, else to the version the
catalog ratified, else all; none where the log does not hold them. The log of a catalog-managed
table is what the catalog ratified, staged or published. -/
def ends (version maxCatalogVersion : Option Nat) (log : List CommitFile) : Option Nat :=
  match version with
  | some v => if v < log.length ∧ v ≤ maxCatalogVersion.getD v then some (v + 1) else none
  | none =>
    match maxCatalogVersion with
    | some ratified => if ratified < log.length then some (ratified + 1) else none
    | none => if log.length = 0 then none else some log.length

/-- Which build a call is in: the incremental one of `refresh`, the one it falls back to, the one
it makes where the commit file was replaced, or the one of `resolve`. -/
inductive Origin (Token : Type) where
  | incremental (held : Held Token)
  | afresh (held : Held Token)
  | refreshed
  | resolved
  deriving DecidableEq

/-- The snapshot an update started from. -/
def Origin.existing : Origin Token → Option (Held Token)
  | .incremental held | .afresh held => some held
  | .refreshed | .resolved => none

/-- How far a call has come: its next step is one request to storage or one use of the cache. -/
inductive Phase (Token : Type) where
  | ready
  /-- `refresh` next reads the identity of the commit file the snapshot ends at. -/
  | checking (held : Held Token)
  /-- `refresh` next lists the log from the snapshot's version. -/
  | updating (held : Held Token)
  /-- A build next lists the log. -/
  | building (origin : Origin Token)
  /-- A build reads the commits it listed after those it has, the newest first. -/
  | reading (origin : Origin Token) (base listed read : List CommitFile)
  /-- The identity of the commit file the new snapshot ends at is read next. -/
  | recording (origin : Origin Token) (snapshot : Snapshot)
  | remembering (held : Held Token)
  | returned (snapshot : Snapshot)
  | failed
  deriving DecidableEq

structure Call (Token : Type) where
  asked : Asked
  phase : Phase Token
  retried : Bool
  deriving DecidableEq

structure World (Token : Type) where
  storage : Place → List CommitFile
  writes : Nat
  snapshots : Dict Key (Held Token)
  tails : Tails
  calls : Nat → Option (Call Token)

def snapshotCacheSize : Nat := 16

def tailCacheSize : Nat := 64

/-- `cache[key] = value`, moved to the end, and the oldest entries dropped. -/
def keep {κ β : Type} [DecidableEq κ] (size : Nat) (cache : Dict κ β) (key : κ) (value : β) :
    Dict κ β :=
  let moved := cache.pop key ++ [(key, value)]
  moved.drop (moved.length - size)

/-- `_remember` for a snapshot read from a path, `_keep` for one cached by its tail. -/
def remember (asked : Asked) (held : Held Token) (cache : Dict Key (Held Token)) :
    Dict Key (Held Token) :=
  if asked.cacheable then
    if held.identity = none then cache.pop asked.key
    else keep snapshotCacheSize cache asked.key held
  else if asked.byTail then keep snapshotCacheSize cache asked.key held
  else cache

/-- Where a call goes on when a build fails. -/
def failBuild : Origin Token → Phase Token
  | .incremental held => .building (.afresh held)
  | .afresh _ | .refreshed => .building .resolved
  | .resolved => .failed

/-- The version a build reads next. -/
def nextRead (base listed read : List CommitFile) : Nat :=
  base.length + (listed.length - read.length) - 1

/-- A build's listing: it reads the commits listed, or fails where there are none. -/
def list (origin : Origin Token) (log : List CommitFile) : Option Nat → Phase Token
  | none => failBuild origin
  | some n => .reading origin [] (log.take n) []

/-- The snapshot of the commits read, once all are. -/
def readOne (origin : Origin Token) (base listed read : List CommitFile) :
    Option CommitFile → Phase Token
  | none => failBuild origin
  | some file =>
    if read.length + 1 < listed.length then .reading origin base listed (file :: read)
    else .recording origin ⟨base ++ file :: read,
      (listed.getLast?.map CommitFile.listing).getD file.listing⟩

/-- The identity is read for a snapshot that can be reused, unless an update came to the version
it started from. -/
def Origin.records (asked : Asked) (snapshot : Snapshot) (origin : Origin Token) : Bool :=
  asked.cacheable && decide (origin.existing.map (·.snapshot.version) ≠ some snapshot.version)

def Origin.recorded (stores : Stores Token) (asked : Asked) (log : List CommitFile)
    (snapshot : Snapshot) (origin : Origin Token) : Option Token :=
  if origin.records asked snapshot then commitIdentity stores asked.place log snapshot
  else origin.existing.bind Held.identity

/-- The next phase of a call, from the log at its place and what is cached under its key. -/
def Phase.next (stores : Stores Token) (asked : Asked) (log : List CommitFile)
    (cached : Option (Held Token)) : Phase Token → Option (Phase Token)
  | .ready =>
    match cached with
    | none => some (.building .resolved)
    | some held =>
      if asked.byTail && !asked.fresh then some (.returned held.snapshot)
      else if asked.reuse then some (.checking held)
      else some (.building .resolved)
  | .checking held =>
    if held.identity = none then some (.building .resolved)
    else if commitIdentity stores asked.place log held.snapshot = held.identity then
      if asked.version.isSome then some (.remembering held) else some (.updating held)
    else some (.building .refreshed)
  | .updating held =>
    if log.length < held.snapshot.commits.length then some (.building (.afresh held))
    else if log.length = held.snapshot.commits.length then some (.remembering held)
    else some (.reading (.incremental held) held.snapshot.commits
      (log.drop held.snapshot.commits.length) [])
  | .building origin => some (list origin log (ends asked.version asked.tail.maxCatalogVersion log))
  | .reading origin base listed read =>
    some (readOne origin base listed read log[nextRead base listed read]?)
  | .recording origin snapshot =>
    some (.remembering ⟨snapshot, origin.recorded stores asked log snapshot⟩)
  | .remembering held => some (.returned held.snapshot)
  | .returned _ => none
  | .failed => none

/-- The phase a call is in after a request of it failed. -/
def Phase.fails : Phase Token → Option (Phase Token)
  | .checking _ => some (.building .refreshed)
  | .updating held => some (.building (.afresh held))
  | .building origin | .reading origin _ _ _ => some (failBuild origin)
  | .recording _ snapshot => some (.remembering ⟨snapshot, none⟩)
  | _ => none

/-- What a call's step leaves in the cache. -/
def Phase.leaves (asked : Asked) (cache : Dict Key (Held Token)) :
    Phase Token → Dict Key (Held Token)
  | .ready =>
    match cache.get asked.key with
    | none => cache
    | some held =>
      if asked.byTail && !asked.fresh then cache.pop asked.key ++ [(asked.key, held)] else cache
  | .remembering held => remember asked held cache
  | _ => cache

inductive Event where
  /-- Another writer commits. -/
  | commit (place : Place) (content : String) (listing : FileMeta)
  /-- The table is dropped, and a log re-created where it was. -/
  | replace (place : Place) (log : List (String × FileMeta))
  | refreshTail (location : String) (tableId : Option String) (tail : Tail)
  | forget (location : String)
  | start (id : Nat) (asked : Asked)
  | act (id : Nat)
  | fail (id : Nat)
  /-- Storage refused the credential, and the call resolves the table again with a new one. -/
  | retry (id : Nat)

/-- Files written one after another. -/
def written (first : Nat) : List (String × FileMeta) → List CommitFile
  | [] => []
  | (content, listing) :: log => ⟨content, listing, first⟩ :: written (first + 1) log

namespace World

def setLog (w : World Token) (place : Place) (log : List CommitFile) (count : Nat) : World Token :=
  { w with
    storage := fun p => if p = place then log else w.storage p
    writes := w.writes + count }

def setCall (w : World Token) (id : Nat) (call : Call Token) : World Token :=
  { w with calls := fun i => if i = id then some call else w.calls i }

def setPhase (w : World Token) (id : Nat) (call : Call Token) (phase : Phase Token) : World Token :=
  w.setCall id { call with phase := phase }

def step (stores : Stores Token) (w : World Token) : Event → Option (World Token)
  | .commit place content listing =>
    some (w.setLog place (w.storage place ++ [⟨content, listing, w.writes⟩]) 1)
  | .replace place log => some (w.setLog place (written w.writes log) log.length)
  | .refreshTail location tableId tail =>
    some { w with tails := keep tailCacheSize w.tails (location, tableId) tail }
  | .forget location =>
    some { w with snapshots := w.snapshots.filter fun e => e.1.place.location ≠ location }
  | .start id asked =>
    match w.calls id with
    | some _ => none
    | none => some (w.setCall id ⟨asked.withTail w.tails, .ready, false⟩)
  | .act id => do
    let call ← w.calls id
    let phase ← call.phase.next stores call.asked (w.storage call.asked.place)
      (w.snapshots.get call.asked.key)
    some { w.setPhase id call phase with
      snapshots := call.phase.leaves call.asked w.snapshots }
  | .fail id => do
    let call ← w.calls id
    let phase ← call.phase.fails
    some (w.setPhase id call phase)
  | .retry id => do
    let call ← w.calls id
    if call.phase = .failed ∧ call.retried = false then
      some (w.setCall id ⟨call.asked, .ready, true⟩)
    else none

/-- A process that has resolved nothing, over storage as earlier writes left it. -/
structure Initial (w : World Token) : Prop where
  written : ∀ place, ∀ file ∈ w.storage place, file.written < w.writes
  snapshots : w.snapshots = []
  calls : ∀ id, w.calls id = none

end World

end

end DeltaSwamp.Snapshots
