import DeltaSwamp.Metadata.Covering

/-!
# In-commit timestamps

`build_actions` of `engine/metadata.py`, one attempt of `_commit_metadata`, and
the log that these and other writers leave: which commits carry a timestamp of
their own, and what the table records about when that began.
-/

namespace DeltaSwamp.Metadata

def enablementVersion : String := "delta.inCommitTimestampEnablementVersion"

def enablementTimestamp : String := "delta.inCommitTimestampEnablementTimestamp"

/-- What stands for the enablement timestamp until the commit is built. -/
def unresolved : String := "__ICT__"

/-- `_CATALOG_FEATURES`. -/
def catalogFeatures : List String := ["catalogManaged", "catalogOwned-preview"]

section
variable (py : Python)

/-- Whether the configuration has in-commit timestamps on. -/
def stamping (config : Config) : Bool := py.lower ((config.get inCommit).getD "false") = "true"

/-- The actions of one commit: the times of its `commitInfo`, and what it changes. -/
structure Actions where
  timestamp : Int
  inCommitTimestamp : Option Int
  protocol : Option Protocol
  metadata : Option TableMetadata
  clustering : Option (List (List String))
  deriving DecidableEq

/-- `ict or now`. -/
def orNow (ict : Option Int) (now : Int) : Int :=
  match ict with
  | some t => if t = 0 then now else t
  | none => now

/-- The metadata with its enablement timestamp filled in. -/
def TableMetadata.resolve (metadata : TableMetadata) (time : Int) : TableMetadata :=
  if metadata.configuration.get enablementTimestamp = some unresolved then
    { metadata with configuration := metadata.configuration.set enablementTimestamp (py.str time) }
  else metadata

/-- `build_actions`: an error names the features that leave the commit to the catalog. -/
def buildActions (state : TableState) (timestamp : Option Int) (change : Change) (now : Int) :
    Except (List String) Actions :=
  let listed := state.protocol.readerFeatures.getD [] ++ state.protocol.writerFeatures.getD []
  let managed := catalogFeatures.filter fun f => f ∈ listed
  if managed ≠ [] then .error managed
  else
    let ict :=
      if stamping py (change.metadata.getD state.metadata).configuration then
        some (max now (timestamp.getD 0 + 1))
      else none
    .ok {
      timestamp := ict.getD now
      inCommitTimestamp := ict
      protocol := change.protocol
      metadata := change.metadata.map fun m => m.resolve py (orNow ict now)
      clustering := change.clustering }

/-- One version: its snapshot, the timestamp its commit carries, and when the file was stored. -/
structure Logged where
  state : TableState
  inCommitTimestamp : Option Int
  modified : Int
  deriving DecidableEq

/-- `snapshot.timestamp()`. -/
def Logged.timestamp (c : Logged) : Int :=
  if stamping py c.state.configuration then c.inCommitTimestamp.getD c.modified else c.modified

/-- The version a commit of `actions` makes of the one before. -/
def Logged.after (base : Logged) (actions : Actions) (modified : Int) : Logged where
  state := {
    version := base.state.version + 1
    protocol := actions.protocol.getD base.state.protocol
    metadata := actions.metadata.getD base.state.metadata
    clustering := actions.clustering <|> base.state.clustering }
  inCommitTimestamp := actions.inCommitTimestamp
  modified := modified

/-- `commit_raw`: a put-if-absent of one version. -/
def putVersion (log : List Logged) (version : Nat) (c : Logged) : List Logged :=
  if version = log.length then log ++ [c] else log

/-- What happens to the log. A change is computed against the version `read`,
which need not be the last by the time it is put. -/
inductive Move where
  /-- An attempt of `_commit_metadata`. -/
  | attempt (e : Event) (read : Nat) (now modified : Int)
  /-- A commit of `build_actions` that sets no property of in-commit timestamps: a comment, a
  dropped constraint, a RESTORE, a repair. -/
  | keeping (change : Change) (read : Nat) (now modified : Int)
  /-- A commit of another writer. -/
  | other (c : Logged)

/-- The commit of a change against a version of the log. -/
def commitChange (log : List Logged) (base : Logged) (change : Change) (read : Nat)
    (now modified : Int) : List Logged :=
  match buildActions py base.state (some (base.timestamp py)) change now with
  | .error _ => log
  | .ok actions => putVersion log (read + 1) (base.after actions modified)

def Move.next (log : List Logged) : Move → Option (List Logged)
  | .attempt e read now modified => do
    let base ← log[read]?
    match act py base.state e with
    | .error _ => some log
    | .ok change =>
      if change = .nothing then some log
      else some (commitChange py log base change read now modified)
  | .keeping change read now modified => do
    let base ← log[read]?
    some (commitChange py log base change read now modified)
  | .other c => some (log ++ [c])

/-- Whether two configurations have the same properties of in-commit timestamps. -/
def SameStamps (a b : Config) : Prop :=
  b.get inCommit = a.get inCommit ∧ b.get enablementVersion = a.get enablementVersion ∧
    b.get enablementTimestamp = a.get enablementTimestamp

/-- A commit that keeps the rules of in-commit timestamps, after those of `log`. -/
structure WellTimed (log : List Logged) (c : Logged) : Prop where
  version : c.state.version = log.length
  stamped : stamping py c.state.configuration = true → ∃ t, c.inCommitTimestamp = some t ∧
    (∀ last ∈ log.getLast?, last.timestamp py < t)
  fresh : stamping py c.state.configuration = true → log = [] →
    c.state.configuration.get enablementVersion = none ∧
      c.state.configuration.get enablementTimestamp = none
  kept : stamping py c.state.configuration = true → ∀ last ∈ log.getLast?,
    stamping py last.state.configuration = true →
      c.state.configuration.get enablementVersion =
          last.state.configuration.get enablementVersion ∧
        c.state.configuration.get enablementTimestamp =
          last.state.configuration.get enablementTimestamp
  enabled : stamping py c.state.configuration = true → ∀ last ∈ log.getLast?,
    stamping py last.state.configuration = false →
      c.state.configuration.get enablementVersion = some (py.str log.length) ∧
        c.state.configuration.get enablementTimestamp = c.inCommitTimestamp.map py.str

/-- The last value a mapping gives `delta.enableInCommitTimestamps`. -/
def asked (last : Option RawValue) (properties : List (String × RawValue)) : Option RawValue :=
  properties.foldl (fun last p => if canonicalKey py p.1 = inCommit then some p.2 else last) last

/-- Whether the event asks for in-commit timestamps to be on. -/
def asksStamping : Event → Bool
  | .setProperties properties =>
    (asked py none properties).any fun raw => py.lower (strip py (raw.given py)) = "true"
  | _ => false

/-- What is assumed of other writers, and of the changes that set none of these properties. -/
def Move.Lawful (log : List Logged) : Move → Prop
  | .attempt _ _ _ _ => True
  | .keeping change read _ _ => ∀ base, log[read]? = some base →
    SameStamps base.state.configuration (change.metadata.getD base.state.metadata).configuration
  | .other c => WellTimed py log c

/-- In-commit timestamps are not switched on by a clock before the epoch right after a commit of
the last millisecond before it. -/
def Move.Prompt (log : List Logged) : Move → Prop
  | .attempt e read now _ => ∀ base, log[read]? = some base → asksStamping py e = true →
    stamping py base.state.configuration = false → base.timestamp py = -1 → 0 ≤ now
  | _ => True

/-- In-commit timestamps are on from version `first` to version `v`, as `v` records it. -/
structure StampedSince (log : List Logged) (first v : Nat) : Prop where
  le : first ≤ v
  carried : ∀ u, first ≤ u → u ≤ v → ∃ c t, log[u]? = some c ∧
    stamping py c.state.configuration = true ∧ c.inCommitTimestamp = some t ∧
      ∀ before, 0 < u → log[u - 1]? = some before → before.timestamp py < t
  recorded : ∀ c start, log[v]? = some c → log[first]? = some start →
    (c.state.configuration.get enablementVersion = some (py.str first) ∧
      ∃ t, start.inCommitTimestamp = some t ∧
        c.state.configuration.get enablementTimestamp = some (py.str t)) ∨
    (first = 0 ∧ c.state.configuration.get enablementVersion = none ∧
      c.state.configuration.get enablementTimestamp = none)

end

end DeltaSwamp.Metadata
