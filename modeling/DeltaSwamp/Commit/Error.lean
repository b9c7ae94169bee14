import DeltaSwamp.Text

/-!
# Commit errors

`error.rs` and the classification of a failed commit in `commit.rs`. The
kernel hands back an error with its rendered text; a catalog's HTTP status is
recovered from that text.
-/

namespace DeltaSwamp.Commit

/-- The variants of the object store's error a commit tells apart. -/
inductive StoreError where
  | notFound
  | alreadyExists
  | precondition
  | notImplemented
  | generic
  deriving DecidableEq, Repr

/-- The kernel's errors, each with the text it renders as. -/
inductive KernelError where
  | objectStore (error : StoreError) (shown : Text)
  | ioError (shown : Text)
  | fileNotFound (shown : Text)
  | other (shown : Text)
  deriving DecidableEq, Repr

inductive NativeError where
  | kernel (error : KernelError)
  | objectStore (error : StoreError) (shown : Text)
  | arrow (shown : Text)
  | url (shown : Text)
  | invalid (message : Text)
  | commitConflict (message : Text)
  | backfillRequired (message : Text)
  | retryable (message : Text)
  | catalogPermission (message : Text)
  | catalogNotFound (message : Text)
  | catalogRejected (message : Text)
  deriving DecidableEq, Repr

/-- The three digits right after the first `status `. -/
def httpStatus (lowered : Text) : Option Nat := do
  let rest ← Text.after "status ".toList lowered
  let digits := rest.takeWhile Text.isAsciiDigit
  if digits.length = 3 then some (Text.toNat digits) else none

/-- The codes searched for hold no prefix of themselves, so trying every
position finds what `match_indices` does. -/
def hasCode (text code : Text) : Bool := Text.wholeWord code none text

def catalogFailedMessage (message : Text) : Text :=
  ("the catalog failed before confirming the commit, which may or may not have " ++
    "been ratified; re-read the table before committing again: ").toList ++ message

def timedOutMessage (message : Text) : Text :=
  ("the commit timed out before it was confirmed, and may or may not have landed; " ++
    "re-read the table before committing again: ").toList ++ message

def classifyStatus (status : Nat) (message : Text) : NativeError :=
  if status = 429 then .backfillRequired message
  else if status = 409 then .commitConflict message
  else if status = 401 ∨ status = 403 then .catalogPermission message
  else if status = 404 then .catalogNotFound message
  else if 500 ≤ status ∧ status ≤ 599 then .retryable (catalogFailedMessage message)
  else .catalogRejected message

section
variable (lowerChar : Char → Text)

/-- The UC client's words for a 401, a missing table and the backfill cap. -/
def classifyWords (lowered message : Text) : Option NativeError :=
  if Text.contains lowered "uc update_table error".toList then
    if Text.contains lowered "authentication failed".toList then
      some (.catalogPermission message)
    else if Text.contains lowered "table not found".toList then some (.catalogNotFound message)
    else if Text.contains lowered "max unpublished commits".toList then
      some (.backfillRequired message)
    else none
  else none

def saysTimeout (lowered : Text) : Bool :=
  Text.contains lowered "timed out".toList || Text.contains lowered "timeout".toList

def saysBackfill (lowered : Text) : Bool :=
  hasCode lowered "429".toList || Text.contains lowered "unbackfilled".toList

def saysConflict (lowered : Text) : Bool :=
  hasCode lowered "409".toList || Text.contains lowered "conflict".toList

/-- `classify_commit_error`. `lowerChar` is Unicode's lower-case mapping. -/
def classifyCommitError (message : Text) : NativeError :=
  let lowered := Text.lower lowerChar message
  match httpStatus lowered with
  | some status => classifyStatus status message
  | none =>
    match classifyWords lowered message with
    | some error => error
    | none =>
      if saysTimeout lowered then .retryable (timedOutMessage message)
      else if saysBackfill lowered then .backfillRequired message
      else if saysConflict lowered then .commitConflict message
      else .invalid message

def preconditionMessage (shown : Text) : Text :=
  ("the version already exists: another writer committed it first (the store " ++
    "refused the put-if-absent: ").toList ++ shown ++
  "). Re-read the snapshot and retry.".toList

def classifyKernelCommitError : KernelError → NativeError
  -- Azure's answer to a lost put-if-absent.
  | .objectStore .precondition shown => .commitConflict (preconditionMessage shown)
  | .objectStore error shown => .kernel (.objectStore error shown)
  | .ioError shown => .kernel (.ioError shown)
  | .fileNotFound shown => .kernel (.fileNotFound shown)
  | .other shown => classifyCommitError lowerChar shown

end

/-- What the kernel's `Transaction::commit` returns when it does not fail. -/
inductive CommitResult where
  | committed (version : Version)
  | conflicted (version : Version)
  | retryable
  deriving DecidableEq, Repr

def conflictMessage (version : Version) : Text :=
  ("another writer committed version " ++ toString version ++ " first. Re-read the snapshot, " ++
    "recompute the write, and stage a new commit -- do not reuse the staged file, " ++
    "because it encodes a version-specific txnId.").toList

def retryableMessage : Text :=
  ("the commit failed with a retryable I/O error; the table state is unchanged, " ++
    "so the same transaction may be retried").toList

/-- `finish_commit_as`; the checksum written after a commit is in `Checksum`. -/
def finishCommitAs (lowerChar : Char → Text) :
    Except KernelError CommitResult → Except NativeError Version
  | .ok (.committed version) => .ok version
  | .ok (.conflicted version) => .error (.commitConflict (conflictMessage version))
  | .ok .retryable => .error (.retryable retryableMessage)
  | .error error => .error (classifyKernelCommitError lowerChar error)

/-- Whether a failed commit certainly did not land, by the code's own reading. -/
def neverCommitted : NativeError → Bool
  | .commitConflict _ | .retryable _ | .backfillRequired _
  | .catalogPermission _ | .catalogNotFound _ => true
  | _ => false

end DeltaSwamp.Commit
