import DeltaSwamp.Commit.Error
import DeltaSwamp.Run

/-!
# An append and the answers to its puts

`Table.append` on a path table, one read, put or answer at a time, beside other
writers. A put may be applied with its answer lost, and the store's client then
reports a failure or, having sent it again, that the version exists.
-/

namespace DeltaSwamp.Append

open Commit

/-- A version of the log: one of the call's own, by attempt, or another writer's, which may record
the call's transaction or a later one of its application. -/
inductive Entry where
  | own (attempt : Nat)
  | foreign (records : Bool)
  deriving DecidableEq

abbrev Log := List Entry

/-- A call of `append` with re-readable data. -/
structure Job where
  /-- Whether it has a transaction. -/
  txn : Bool
  retries : Option Int
  deriving DecidableEq

/-- `append_commit_retries` -/
def appendCommitRetries : Nat := 15

def Job.attempts (job : Job) : Nat := 1 + (job.retries.getD appendCommitRetries).toNat

/-- `_REALIGN_ATTEMPTS` -/
def realignAttempts : Nat := 5

/-- Whether a snapshot records the call's transaction. -/
def Job.recorded (job : Job) (snapshot : Log) : Bool :=
  job.txn && snapshot.any fun
    | .own _ => true
    | .foreign records => records

/-- The put-if-absent of a version, which adds the files of an attempt. -/
structure Put where
  attempt : Nat
  version : Nat
  deriving DecidableEq

/-- What the store's client reports of a put. -/
inductive Report where
  | confirmed
  /-- The version exists; Azure's client may say so as a failed precondition. -/
  | exists
  | precondition (shown : Text)
  | storeFailure (shown : Text)
  | ioFailure (shown : Text)
  /-- An I/O failure that the kernel takes for one to retry. -/
  | retryable
  deriving DecidableEq

/-- What the kernel makes of a report. -/
def Report.result (report : Report) (version : Nat) : Except KernelError CommitResult :=
  match report with
  | .confirmed => .ok (.committed version)
  | .exists => .ok (.conflicted version)
  | .precondition shown => .error (.objectStore .precondition shown)
  | .storeFailure shown => .error (.objectStore .generic shown)
  | .ioFailure shown => .error (.ioError shown)
  | .retryable => .ok .retryable

/-- Whether a report says that the version exists. -/
def Report.saysExists : Report → Bool
  | .exists | .precondition _ => true
  | _ => false

inductive Phase where
  /-- Before the check that the transaction was committed already. -/
  | entry
  /-- To read the snapshot of an attempt. -/
  | resolve (aligned attempt : Nat)
  /-- Its data files are being written, on a snapshot of that length. -/
  | stage (aligned attempt version : Nat)
  | sent (aligned attempt : Nat) (put : Put)
  /-- The version was lost, and `_txn_won_race` is asked. -/
  | lost (aligned attempt : Nat)
  /-- A conflict is raised out of the engine, and `_txn_landed` is asked. -/
  | conflicted (aligned : Nat)
  /-- An error is raised out of `_raced_append`; it may be one to align the data again for. -/
  | failed (aligned : Nat) (realigns : Bool)
  | returned
  | raised
  deriving DecidableEq

structure World where
  log : Log
  /-- Every put made. -/
  sent : List Put
  /-- The attempts whose data files were deleted. -/
  deleted : List Nat
  /-- The attempts whose put was reported as one to retry. -/
  retryable : List Nat
  /-- How many attempts there have been. -/
  attempts : Nat
  phase : Phase

def World.start (history : List Bool) : World where
  log := history.map .foreign
  sent := []
  deleted := []
  retryable := []
  attempts := 0
  phase := .entry

inductive Event where
  /-- Another writer commits. -/
  | write (records : Bool)
  /-- The store applies a put. -/
  | land (put : Put)
  /-- The call reads the table, as far as the store shows it. -/
  | check (seen : Nat)
  | resolve (seen : Nat)
  /-- Writing the data files fails. -/
  | stageFails (realigns : Bool)
  | send
  | answer (report : Report)
  /-- `_txn_won_race` and `_txn_landed` read the table; they may fail to. -/
  | race (seen : Option Nat)
  | landed (seen : Option Nat)
  | giveUp
  | realign
  deriving DecidableEq

section
variable (lowerChar : Char → Text) (job : Job)

/-- `stage_and_commit` past the put, and the engine's loop. -/
def answered (s : World) (aligned attempt : Nat) (put : Put) (report : Report) : World :=
  match finishCommitAs lowerChar (report.result put.version) with
  | .ok _ => { s with phase := .returned }
  | .error error =>
    { s with
      deleted := if neverCommitted error then put.attempt :: s.deleted else s.deleted
      retryable := if report = .retryable then put.attempt :: s.retryable else s.retryable
      phase := match error with
        | .commitConflict _ => .lost aligned attempt
        | _ => .failed aligned false }

/-- What the store may report: a version it calls taken is there, and so is one it confirms. -/
def Report.possible (log : Log) (put : Put) : Report → Bool
  | .confirmed => log[put.version]? = some (.own put.attempt)
  | .exists | .precondition _ => decide (put.version < log.length)
  | _ => true

/-- `_txn_won_race`, which an unreadable table does not deny. -/
def wonRace (log : Log) : Option Nat → Bool
  | none => job.txn
  | some seen => job.recorded (log.take seen)

def next (s : World) : Event → Option World
  | .write records => some { s with log := s.log ++ [.foreign records] }
  | .land put =>
    if put ∈ s.sent ∧ put.version = s.log.length ∧ .own put.attempt ∉ s.log then
      some { s with log := s.log ++ [.own put.attempt] }
    else none
  | .check seen =>
    match s.phase with
    | .entry =>
      some { s with
        phase := if job.recorded (s.log.take seen) then .returned else .resolve 0 0 }
    | _ => none
  | .resolve seen =>
    match s.phase with
    | .resolve aligned attempt =>
      if seen ≤ s.log.length then
        some { s with
          phase := if job.recorded (s.log.take seen) then .conflicted aligned
            else .stage aligned attempt seen }
      else none
    | _ => none
  | .stageFails realigns =>
    match s.phase with
    | .stage aligned _ _ =>
      some { s with
        deleted := s.attempts :: s.deleted
        attempts := s.attempts + 1
        phase := .failed aligned realigns }
    | _ => none
  | .send =>
    match s.phase with
    | .stage aligned attempt version =>
      let put := ⟨s.attempts, version⟩
      some { s with
        sent := put :: s.sent
        attempts := s.attempts + 1
        phase := .sent aligned attempt put }
    | _ => none
  | .answer report =>
    match s.phase with
    | .sent aligned attempt put =>
      if report.possible s.log put then some (answered lowerChar s aligned attempt put report)
      else none
    | _ => none
  | .race seen =>
    match s.phase with
    | .lost aligned attempt =>
      some { s with
        phase := if job.attempts ≤ attempt + 1 || wonRace job s.log seen then .conflicted aligned
          else .resolve aligned (attempt + 1) }
    | _ => none
  | .landed seen =>
    match s.phase with
    | .conflicted aligned =>
      some { s with
        phase := if (seen.map fun seen => job.recorded (s.log.take seen)) = some true then .returned
          else .failed aligned true }
    | _ => none
  | .giveUp =>
    match s.phase with
    | .failed _ _ => some { s with phase := .raised }
    | _ => none
  | .realign =>
    match s.phase with
    | .failed aligned true =>
      if aligned + 1 < realignAttempts then some { s with phase := .resolve (aligned + 1) 0 }
      else none
    | _ => none

end

end DeltaSwamp.Append
