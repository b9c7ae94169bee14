import DeltaSwamp.Bisect
import DeltaSwamp.Json
import DeltaSwamp.Text

/-!
# Version checksums

`checksum.rs` where it composes a checksum itself: the one of version 0, from
its own actions, and the one carried forward over a commit. A commit is the
list of its lines, each parsed or not. Nothing is written where there is no
result.
-/

namespace DeltaSwamp.Checksum

open Bisect

/-- `i64` and `u64` arithmetic of a release build, which wraps. -/
def wrapI64 (n : Int) : Int := n.bmod (2 ^ 64)

def wrapU64 (n : Nat) : Nat := n % 2 ^ 64

structure Histogram where
  bounds : List Int
  counts : List Int
  sizes : List Int
  deriving DecidableEq

structure Counts where
  files : Int
  bytes : Int
  histogram : Option Histogram
  deriving DecidableEq

def readList (value : Json) (key : String) : Option (List Int) := do
  (← (← value.get key).asArray).mapM Json.asI64

/-- None for a histogram that cannot be kept true; `some none` where there is none. -/
def readHistogram (crc : Fields) : Option (Option Histogram) :=
  match crc.lookup "fileSizeHistogram" with
  | none | some .null => some none
  | some value => do
    let bounds ← readList value "sortedBinBoundaries"
    let counts ← readList value "fileCounts"
    let sizes ← readList value "totalBytes"
    if bounds.head? = some 0 ∧ counts.length = bounds.length ∧ sizes.length = bounds.length then
      some (some ⟨bounds, counts, sizes⟩)
    else none

/-- The file an action brings in or takes out. -/
def fileOf (action : Fields) : Option (Json × Int) :=
  match action.lookup "add", action.lookup "remove" with
  | some add, _ => some (add, 1)
  | none, some remove => some (remove, -1)
  | none, none => none

def sizeOf (file : Json) : Option Int := do
  let size ← (← file.get "size").asI64
  if 0 ≤ size then some size else none

def Histogram.bin (h : Histogram) (size : Int) : Nat :=
  match binarySearch h.bounds size with
  | .ok i => i
  | .error i => i - 1

def Histogram.count (h : Histogram) (sign size : Int) : Histogram :=
  { h with
    counts := h.counts.modify (h.bin size) fun n => wrapI64 (n + sign)
    sizes := h.sizes.modify (h.bin size) fun n => wrapI64 (n + sign * size) }

def Counts.count (c : Counts) (file : Json) (sign : Int) : Option Counts := do
  let size ← sizeOf file
  some {
    files := wrapI64 (c.files + sign)
    bytes := wrapI64 (c.bytes + sign * size)
    histogram := c.histogram.map fun h => h.count sign size }

def countActions (c : Counts) : List Fields → Option Counts
  | [] => some c
  | action :: rest =>
    match fileOf action with
    | none => countActions c rest
    | some (file, sign) => do countActions (← c.count file sign) rest

def vectorsChanged (actions : List Fields) : Bool :=
  actions.any fun action =>
    (fileOf action).any fun (file, _) => (file.get "deletionVector").any (· ≠ .null)

def incrementalSafeOps : List String :=
  ["WRITE", "STREAMING UPDATE", "MERGE", "UPDATE", "DELETE", "OPTIMIZE", "CREATE TABLE",
    "REPLACE TABLE", "CREATE TABLE AS SELECT", "REPLACE TABLE AS SELECT",
    "CREATE OR REPLACE TABLE AS SELECT"]

def operationOf (actions : List Fields) : Option String := do
  (← (← actions.findSome? fun a => a.lookup "commitInfo").get "operation").asStr

def ints (numbers : List Int) : Json := .arr (numbers.map .int)

def Histogram.toJson (h : Histogram) : Json :=
  .obj [("sortedBinBoundaries", ints h.bounds), ("fileCounts", ints h.counts),
    ("totalBytes", ints h.sizes)]

def Histogram.negative (h : Histogram) : Bool := (h.counts ++ h.sizes).any (· < 0)

/-- What the counts leave of the checksum they were read from. -/
def Counts.store (c : Counts) (crc : Fields) (vectors : Bool) : Fields :=
  let crc := match c.histogram with
    | some h => crc.insert "fileSizeHistogram" h.toJson
    | none => crc
  let crc := (crc.insert "numFiles" (.int c.files)).insert "tableSizeBytes" (.int c.bytes)
  let crc := crc.remove "allFiles"
  if vectors then
    ((crc.remove "numDeletedRecordsOpt").remove "numDeletionVectorsOpt").remove
      "deletedRecordCountsHistogramOpt"
  else crc

/-- `count_files`: none is its `false`. -/
def countFiles (crc : Fields) (actions : List Fields) : Option Fields := do
  if (operationOf actions).any (· ∈ incrementalSafeOps) then
    let files ← (← crc.lookup "numFiles").asI64
    let bytes ← (← crc.lookup "tableSizeBytes").asI64
    let histogram ← readHistogram crc
    let c ← countActions ⟨files, bytes, histogram⟩ actions
    if c.files < 0 ∨ c.bytes < 0 ∨ c.histogram.any Histogram.negative then none
    else some (c.store crc (vectorsChanged actions))
  else none

def upsert (crc : Fields) (list key : String) (entry : Json) (removed : Bool) : Fields :=
  match crc.lookup list with
  | some (.arr items) =>
    let kept := items.filter fun item => item.get key ≠ entry.get key
    crc.insert list (.arr (if removed then kept else kept ++ [entry]))
  | _ => crc

def isRemoved (domain : Json) : Bool := (domain.get "removed").bind Json.asBool = some true

/-- The checksum and the in-commit timestamp found so far, over one more action. -/
def carryAction (carried : Fields × Option Json) (action : Fields) : Fields × Option Json :=
  let crc := carried.1
  let crc := match action.lookup "metaData" with
    | some metadata => crc.insert "metadata" metadata
    | none => crc
  let crc := match action.lookup "protocol" with
    | some protocol => crc.insert "protocol" protocol
    | none => crc
  let ict := match action.lookup "commitInfo" with
    | some info => info.get "inCommitTimestamp"
    | none => carried.2
  let crc := match action.lookup "domainMetadata" with
    | some domain => upsert crc "domainMetadata" "domain" domain (isRemoved domain)
    | none => crc
  let crc := match action.lookup "txn" with
    | some txn => upsert crc "setTransactions" "appId" txn false
    | none => crc
  (crc, ict)

def ictEnabled (crc : Fields) : Bool :=
  (do (← (← (← crc.lookup "metadata").get "configuration").get
    "delta.enableInCommitTimestamps").asStr) = some "true"

/-- The checksum with the commit's in-commit timestamp, which one that enables
them must have. -/
def stamp (crc : Fields) (ict : Option Json) : Option Fields :=
  match ict with
  | some ts => some (crc.insert "inCommitTimestampOpt" ts)
  | none => if ictEnabled crc then none else some (crc.remove "inCommitTimestampOpt")

def readActions (lines : List (Option Json)) : Option (List Fields) :=
  lines.mapM fun line => match line with
    | some (.obj action) => some action
    | _ => none

def filesChanged (actions : List Fields) : Bool :=
  actions.any fun a => (a.lookup "add").isSome || (a.lookup "remove").isSome

/-- `carry_forward`, from what reading the previous checksum and the commit gives. -/
def carryForward (version : Version) (previous : Option Json)
    (commit : Option (List (Option Json))) : Option Json :=
  match version, previous, commit with
  | _ + 1, some (.obj crc), some lines => do
    let actions ← readActions lines
    let crc ← if filesChanged actions then countFiles crc actions else some crc
    let (crc, ict) := actions.foldl carryAction (crc.remove "txnId", none)
    some (.obj (← stamp crc ict))
  | _, _, _ => none

structure First where
  crc : Fields
  files : Nat
  size : Nat
  domains : List Json
  txns : List Json
  ict : Option Json

def First.action (first : First) (action : Fields) : Option First :=
  match action.lookup "add" with
  | some add => do
    let bytes ← (← add.get "size").asU64
    some { first with files := wrapU64 (first.files + 1), size := wrapU64 (first.size + bytes) }
  | none =>
    if (action.lookup "remove").isSome || (action.lookup "cdc").isSome then none
    else match action.lookup "metaData" with
    | some metadata => some { first with crc := first.crc.insert "metadata" metadata }
    | none =>
      match action.lookup "protocol" with
      | some protocol => some { first with crc := first.crc.insert "protocol" protocol }
      | none =>
        match action.lookup "domainMetadata" with
        | some domain =>
          if isRemoved domain then some first
          else some { first with domains := first.domains ++ [domain] }
        | none =>
          match action.lookup "txn" with
          | some txn => some { first with txns := first.txns ++ [txn] }
          | none =>
            match action.lookup "commitInfo" with
            | some info => some { first with ict := info.get "inCommitTimestamp" }
            | none => some first

/-- What is put together from the counts of version 0's actions. -/
def First.store (first : First) (crc : Fields) : Fields :=
  let crc := crc.insert "tableSizeBytes" (.int first.size)
  let crc := crc.insert "numFiles" (.int first.files)
  let crc := (crc.insert "numMetadata" (.int 1)).insert "numProtocol" (.int 1)
  let crc := crc.insert "setTransactions" (.arr first.txns)
  crc.insert "domainMetadata" (.arr first.domains)

/-- `first_commit`. -/
def firstCommit (commit : Option (List (Option Json))) : Option Json := do
  let actions ← readActions (← commit)
  let first ← actions.foldlM First.action ⟨[], 0, 0, [], [], none⟩
  if (first.crc.lookup "metadata").isSome && (first.crc.lookup "protocol").isSome then
    -- A checksum without a timestamp has none to remove here.
    some (.obj (first.store (← stamp first.crc first.ict)))
  else none

/-- The actions of a commit, each an object with one member. -/
inductive Action where
  | add (file : Json)
  | remove (file : Json)
  | metaData (value : Json)
  | protocol (value : Json)
  | domainMetadata (value : Json)
  | txn (value : Json)
  | commitInfo (value : Json)
  | other (kind : String) (value : Json)
    (unknown : kind ∉ ["add", "remove", "metaData", "protocol", "domainMetadata", "txn",
      "commitInfo"])

def Action.fields : Action → Fields
  | .add file => [("add", file)]
  | .remove file => [("remove", file)]
  | .metaData value => [("metaData", value)]
  | .protocol value => [("protocol", value)]
  | .domainMetadata value => [("domainMetadata", value)]
  | .txn value => [("txn", value)]
  | .commitInfo value => [("commitInfo", value)]
  | .other kind value _ => [(kind, value)]

/-- A commit as its lines are parsed. -/
def lines (actions : List Action) : List (Option Json) :=
  actions.map fun a => some (.obj a.fields)

def fileSize (file : Json) : Nat :=
  match file.get "size" with
  | some (.int n) => n.toNat
  | _ => 0

structure State (κ : Type) where
  live : Finset κ
  size : κ → Nat
  protocol : Option Json
  metadata : Option Json
  /-- The last domain metadata of each domain, unless removed. -/
  domains : Option Json → Option Json
  txns : Option Json → Option Json
  /-- The in-commit timestamp of the last commit. -/
  inCommitTimestamp : Option Json

section
variable {κ : Type} [DecidableEq κ] (key : Json → κ)

def State.empty : State κ := ⟨∅, fun _ => 0, none, none, fun _ => none, fun _ => none, none⟩

def State.apply (st : State κ) : Action → State κ
  | .add file =>
    { st with
      live := insert (key file) st.live
      size := Function.update st.size (key file) (fileSize file) }
  | .remove file => { st with live := st.live.erase (key file) }
  | .metaData value => { st with metadata := some value }
  | .protocol value => { st with protocol := some value }
  | .domainMetadata value =>
    { st with
      domains := Function.update st.domains (value.get "domain")
        (if isRemoved value then none else some value) }
  | .txn value =>
    { st with txns := Function.update st.txns (value.get "appId") (some value) }
  | .commitInfo value => { st with inCommitTimestamp := value.get "inCommitTimestamp" }
  | .other _ _ _ => st

/-- A commit starts without an in-commit timestamp. -/
def State.begin (st : State κ) : State κ := { st with inCommitTimestamp := none }

def State.commit (st : State κ) (actions : List Action) : State κ :=
  actions.foldl (State.apply key) st.begin

/-- The state of the table after version `n` of the log. -/
def stateAt (log : Nat → List Action) : Nat → State κ
  | 0 => State.empty.commit key (log 0)
  | n + 1 => (stateAt log n).commit key (log (n + 1))

/-- An add names a file that is not live, a remove one that is, with its size. -/
def Fits (st : State κ) : Action → Prop
  | .add file => key file ∉ st.live
  | .remove file => key file ∈ st.live ∧ fileSize file = st.size (key file)
  | _ => True

def AllFit : State κ → List Action → Prop
  | _, [] => True
  | st, a :: rest => Fits key st a ∧ AllFit (st.apply key a) rest

instance decidableFits (st : State κ) : (action : Action) → Decidable (Fits key st action)
  | .add file => inferInstanceAs (Decidable (key file ∉ st.live))
  | .remove file =>
    inferInstanceAs (Decidable (key file ∈ st.live ∧ fileSize file = st.size (key file)))
  | .metaData _ | .protocol _ | .domainMetadata _ | .txn _ | .commitInfo _ | .other _ _ _ =>
    inferInstanceAs (Decidable True)

instance decidableAllFit : (st : State κ) → (actions : List Action) →
    Decidable (AllFit key st actions)
  | _, [] => inferInstanceAs (Decidable True)
  | st, a :: rest =>
    have := decidableAllFit (st.apply key a) rest
    inferInstanceAs (Decidable (Fits key st a ∧ AllFit key (st.apply key a) rest))

def State.sumOf (st : State κ) (g : Nat → Int) : Int := ∑ k ∈ st.live, g (st.size k)

def State.numFiles (st : State κ) : Int := st.sumOf fun _ => 1

def State.tableSize (st : State κ) : Int := st.sumOf fun size => size

open Classical in
/-- The files of one bin of a histogram, and their bytes. -/
noncomputable def State.binCount (st : State κ) (bounds : List Int) (i : Nat) : Int :=
  st.sumOf fun size => if IsLast bounds (size : Int) i then 1 else 0

open Classical in
noncomputable def State.binBytes (st : State κ) (bounds : List Int) (i : Nat) : Int :=
  st.sumOf fun size => if IsLast bounds (size : Int) i then size else 0

/-- The totals fit a counter. -/
structure State.Small (st : State κ) (bound : Int) : Prop where
  files : st.numFiles < bound
  bytes : st.tableSize < bound

/-- `items` are exactly the entries of a map by `name`, each once. -/
structure Lists (items : List Json) (name : String) (entries : Option Json → Option Json) :
    Prop where
  mem_iff : ∀ item, item ∈ items ↔ entries (item.get name) = some item
  nodup : (items.map fun item => item.get name).Nodup

/-- A histogram whose bins, between its sorted bounds, are those of the state. -/
structure HistogramTrue (h : Histogram) (st : State κ) : Prop where
  sorted : h.bounds.Pairwise (· < ·)
  counts : ∀ i, h.counts[i]? = if i < h.bounds.length then some (st.binCount h.bounds i) else none
  sizes : ∀ i, h.sizes[i]? = if i < h.bounds.length then some (st.binBytes h.bounds i) else none

/-- The file statistics of a checksum are those of the state. -/
structure FilesTrue (crc : Fields) (st : State κ) : Prop where
  numFiles : crc.lookup "numFiles" = some (.int st.numFiles)
  tableSizeBytes : crc.lookup "tableSizeBytes" = some (.int st.tableSize)
  histogram : ∀ h, readHistogram crc = some (some h) → HistogramTrue h st

/-- What a checksum repeats of the log's actions; a list that is absent is not tracked. -/
structure ActionsTrue (crc : Fields) (st : State κ) : Prop where
  metadata : crc.lookup "metadata" = st.metadata
  protocol : crc.lookup "protocol" = st.protocol
  domainMetadata : ∀ items, crc.lookup "domainMetadata" = some (.arr items) →
    Lists items "domain" st.domains
  setTransactions : ∀ items, crc.lookup "setTransactions" = some (.arr items) →
    Lists items "appId" st.txns

/-- A checksum says of its table what is true of it. -/
structure TrueOf (crc : Fields) (st : State κ) : Prop extends
    FilesTrue crc st, ActionsTrue crc st where
  inCommitTimestampOpt : crc.lookup "inCommitTimestampOpt" = st.inCommitTimestamp

end

end DeltaSwamp.Checksum
