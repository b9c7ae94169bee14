import DeltaSwamp.Run
import DeltaSwamp.Text

/-!
# A distributed write that creates its table

`_Creator.commit` and `abort` of `_create.py` on a path or an external location, with
`WritePlan._commit` and `abort` on the table there and the extension's `rollback_create`: one
read, put, answer or deletion at a time, beside other writers. The calls of one plan follow each
other; a put may take effect at any later moment, whatever its caller was told.
-/

namespace DeltaSwamp.Creating

/-- A `metaData` action: its id and the write layout it declares. -/
structure Metadata where
  identity : Nat
  layout : Text
  deriving DecidableEq

/-- A version after the first: a commit of the plan's files or another writer's. -/
structure Entry where
  own : Bool
  metadata : Option Metadata
  deriving DecidableEq

/-- `MODES`. -/
inductive Mode where
  | append | overwrite | error | ignore
  deriving DecidableEq

/-- What the fragments hold: nothing at all, no file, or files. -/
inductive Load where
  | blank | bare | files
  deriving DecidableEq

structure Plan where
  mode : Mode
  /-- The version 0 it composed. -/
  metadata : Metadata
  load : Load
  /-- The layouts stamped on the fragments. -/
  stamps : List Text
  txn : Bool
  deriving DecidableEq

/-- The arguments of one `commit`. -/
structure Args where
  retries : Nat
  abortOnFailure : Bool
  deriving DecidableEq

/-- Where the plan's call is; `table` is the id of the table it commits into, and `final` tells
`abort` from a commit that failed for certain. -/
inductive Phase where
  | idle
  /-- `_published` -/
  | publish
  | publishing
  /-- `_opened` -/
  | opened
  /-- `_joined`, which returns `version` where it keeps the other writer's table -/
  | joining (table version : Nat)
  | dropping (version : Nat)
  | dropped (version : Nat)
  /-- `_commit` -/
  | attempt (n table : Nat)
  | resolve (n table checked : Nat)
  | ready (n table version : Nat)
  | sent (n table version : Nat)
  /-- `_CertainFailure` -/
  | failed (table : Nat)
  | aborting (table : Nat) (final : Bool)
  | deleting (table : Nat) (final : Bool)
  /-- `rollback_create`: version 1 is looked for, version 0 is read, then deleted. -/
  | rollback
  | rollbackRead
  | rollbackDelete
  | landed (version : Nat)
  | returned (version : Nat) (kept : Bool)
  /-- The call raised, or the abort is over. -/
  | ended
  /-- `_current` -/
  | look
  | reopen
  | erasing
  deriving DecidableEq

def Phase.active : Phase → Bool
  | .idle | .returned _ _ | .ended => false
  | _ => true

structure World where
  /-- Version 0, if it is there. -/
  zero : Option Metadata
  /-- The versions from 1 on. -/
  later : List Entry
  /-- Puts of the plan's version 0 that were not applied. -/
  zeros : Nat
  /-- The versions the plan's files were put at. -/
  sent : List Nat
  /-- The plan's files were deleted. -/
  deleted : Bool
  /-- The plan removed a version 0. -/
  removed : Bool
  /-- The abort has seen that no version adds the files. -/
  looked : Bool
  aborted : Bool
  args : Args
  phase : Phase
  deriving DecidableEq

def World.start : World where
  zero := none
  later := []
  zeros := 0
  sent := []
  deleted := false
  removed := false
  looked := false
  aborted := false
  args := ⟨0, true⟩
  phase := .idle

/-- The metadata a reader of the first so many later versions sees. -/
def metadataAt (zero : Option Metadata) (later : List Entry) : Option Metadata :=
  zero.map fun first => (later.filterMap Entry.metadata).getLast?.getD first

/-- What a snapshot shows; none can be read without version 0. -/
def World.current (s : World) : Option Metadata := metadataAt s.zero s.later

def ownVersions (later : List Entry) : Nat := later.countP Entry.own

inductive Answer where
  | accepted
  | conflict
  /-- A timeout or a server error: the put may have been applied, or may yet be. -/
  | transient
  deriving DecidableEq

inductive Event where
  /-- Another writer creates a table. -/
  | create (metadata : Metadata)
  /-- Another writer commits; if `stale`, onto a version 0 that the plan has removed since. -/
  | write (stale : Bool) (metadata : Option Metadata)
  /-- The store applies a put of the plan's. -/
  | landZero
  | land (version : Nat)
  | commit (args : Args)
  | abort
  | go
  | send
  | answer (answer : Answer)
  | delete
  /-- An abort that a commit makes fails; its error is logged. -/
  | skip
  /-- The call fails in any other way, or its process dies. -/
  | raise
  deriving DecidableEq

section
variable (layoutStillFits : Text → Text → Bool) (plan : Plan)

/-- Whether every fragment's layout still fits. -/
def fits (current : Metadata) : Bool :=
  plan.stamps.all fun written => layoutStillFits written current.layout

def World.to (s : World) (phase : Phase) : World := { s with phase }

/-- How `_joined` ends where it does not join. -/
def declined (version : Nat) : Phase :=
  if plan.mode = .ignore then .returned version true else .ended

/-- What follows the deletion of the files: the create is undone where it is the plan's. -/
def undo (table : Nat) : Phase :=
  if table = plan.metadata.identity then .rollback else .ended

/-- What a call does next by itself. -/
def advance (s : World) : Option World :=
  match s.phase with
  | .opened =>
    match s.current with
    | none => some (s.to .ended)
    | some current =>
      some (s.to (if current.identity = plan.metadata.identity then .attempt 0 current.identity
        else .joining current.identity s.later.length))
  | .joining table version =>
    match s.current with
    | none => some (s.to .ended)
    | some current =>
      some (s.to (
        if plan.mode = .append ∧ fits layoutStillFits plan current = true then .attempt 0 table
        else if s.args.abortOnFailure = true ∨ plan.mode = .ignore then .dropping version
        else .ended))
  | .dropping version =>
    some (s.to (
      if plan.load = .files ∧ s.zero.isSome ∧ ownVersions s.later = 0 then .dropped version
      else declined plan version))
  | .attempt n table =>
    some (s.to (
      if plan.load = .blank ∧ plan.txn = false then
        if s.zero.isSome then .landed s.later.length else .ended
      else if plan.load ≠ .files then .resolve n table s.later.length
      else if s.zero = none then .ended
      else if ownVersions s.later = 0 then .resolve n table s.later.length
      else if ownVersions s.later = 1 then .landed (s.later.findIdx Entry.own + 1)
      else .ended))
  | .resolve n table _ =>
    match s.current with
    | none => some (s.to .ended)
    | some current =>
      some (s.to (
        if current.identity ≠ table then .ended
        else if fits layoutStillFits plan current then .ready n table (s.later.length + 1)
        else .failed table))
  | .failed table => some (s.to (if s.args.abortOnFailure then .aborting table false else .ended))
  | .aborting table final =>
    if plan.load ≠ .files then some { s with looked := s.looked || final, phase := undo plan table }
    else if s.zero.isSome ∧ ownVersions s.later = 0 then
      some { s with looked := s.looked || final, phase := .deleting table final }
    else some (s.to (if final then .ended else undo plan table))
  | .rollback => some (s.to (if s.later = [] then .rollbackRead else .ended))
  | .rollbackRead =>
    some (s.to (
      if (s.zero.map Metadata.identity) = some plan.metadata.identity then .rollbackDelete
      else .ended))
  | .landed version => some (s.to (.returned version false))
  | .look =>
    if s.zero.isSome then some (s.to .reopen)
    else some { s with
      looked := true
      phase := if plan.load = .files then .erasing else .rollback }
  | .reopen =>
    match s.current with
    | none => some (s.to .ended)
    | some current => some (s.to (.aborting current.identity true))
  | _ => none

/-- What a call does with an answer to a put. -/
def answered (s : World) : Answer → Option World
  | .transient =>
    match s.phase with
    | .publishing => some (s.to .ended)
    | .sent n table _ =>
      some (s.to (if n = s.args.retries then .ended else .attempt (n + 1) table))
    | _ => none
  | .accepted =>
    match s.phase with
    | .publishing => if s.zero = some plan.metadata then some (s.to .opened) else none
    | .sent _ _ version =>
      if (s.later[version - 1]?).map Entry.own = some true then some (s.to (.landed version))
      else none
    | _ => none
  | .conflict =>
    match s.phase with
    | .publishing => if s.zero.isSome then some (s.to .opened) else none
    | .sent n table version =>
      if version ≤ s.later.length then
        some (s.to (if n = s.args.retries then .failed table else .attempt (n + 1) table))
      else none
    | _ => none

/-- The deletion of the files, or of version 0. -/
def deletes (s : World) : Option World :=
  match s.phase with
  | .dropped version => some { s with deleted := true, phase := declined plan version }
  | .deleting table _ => some { s with deleted := true, phase := undo plan table }
  | .erasing => some { s with deleted := true, phase := .rollback }
  | .rollbackDelete => some { s with zero := none, removed := true, phase := .ended }
  | _ => none

def next (s : World) : Event → Option World
  | .create metadata =>
    if s.zero = none ∧ metadata.identity ≠ plan.metadata.identity then
      some { s with zero := some metadata }
    else none
  | .write stale metadata =>
    if (if stale then s.removed else s.zero.isSome) then
      some { s with later := s.later ++ [⟨false, metadata⟩] }
    else none
  | .landZero =>
    if s.zero = none ∧ 0 < s.zeros then
      some { s with zero := some plan.metadata, zeros := s.zeros - 1 }
    else none
  | .land version =>
    if version ∈ s.sent ∧ version = s.later.length + 1 then
      some { s with later := s.later ++ [⟨true, none⟩] }
    else none
  | .commit args =>
    if s.phase.active = false ∧ s.aborted = false then some { s with args, phase := .publish }
    else none
  | .abort =>
    if s.phase.active = false ∧ s.aborted = false then
      some { s with aborted := true, phase := .look }
    else none
  | .go => advance layoutStillFits plan s
  | .send =>
    match s.phase with
    | .publish => some { s with zeros := s.zeros + 1, phase := .publishing }
    | .ready n table version =>
      some { s with sent := version :: s.sent, phase := .sent n table version }
    | _ => none
  | .answer answer => answered plan s answer
  | .delete => deletes plan s
  | .skip =>
    match s.phase with
    | .aborting table false | .deleting table false => some (s.to (undo plan table))
    | .dropping version | .dropped version => some (s.to (declined plan version))
    | _ => none
  | .raise => if s.phase.active then some (s.to .ended) else none

end

end DeltaSwamp.Creating
