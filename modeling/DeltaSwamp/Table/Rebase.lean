import DeltaSwamp.Result
import DeltaSwamp.Table.Log

/-!
# The conflict check of a commit that lost its version

`_rebase_dv_commit` and what it reads of the winners. File skipping is the
kernel's: `keeps predicate file` when `predicate` cannot skip `file`.
-/

namespace DeltaSwamp.Table

open Metadata

def truthy : Json → Bool
  | .null => false
  | .bool b => b
  | .int n => n ≠ 0
  | .float shown => shown ∉ ["0.0", "-0.0"]
  | .str s => s ≠ ""
  | .arr items => items ≠ []
  | .obj fields => fields ≠ []

/-- `value or {}`. -/
def orEmpty (value : Json) : Json := if truthy value then value else .obj []

/-- `value.get(name)`: an error for anything but a dictionary. -/
def getMember (value : Json) (name : String) : Except Unit Json :=
  match value with
  | .obj fields => .ok ((fields.lookup name).getD .null)
  | _ => .error ()

section
variable (upperChar lowerChar : Char → Text)

/-- Whether a value is a string that spells `word` once its case is mapped. -/
def spells (caseChar : Char → Text) (value : Json) (word : Text) : Bool :=
  value.asStr.any fun s => Text.lower caseChar s.toList = word

/-- `_blind_append`. -/
def blindAppend (info : Json) : Except Unit Bool := do
  let flag ← getMember info "isBlindAppend"
  if flag ≠ .null then
    return flag = .bool true
  let parameters := orEmpty (← getMember info "operationParameters")
  let operation ← getMember info "operation"
  if !spells upperChar operation ['W', 'R', 'I', 'T', 'E'] then
    return false
  let mode ← getMember parameters "mode"
  if !spells lowerChar mode ['a', 'p', 'p', 'e', 'n', 'd'] then
    return false
  let predicate ← getMember parameters "predicate"
  return !truthy predicate

/-- A commit with nothing but adds, as far as a conflict check looks. -/
def Entry.onlyAdds (entry : Entry) : Bool :=
  entry.removes.isEmpty && entry.metaData.isNone && entry.protocol.isNone

/-- Whether a winner is taken for a blind append. -/
def Entry.blind (entry : Entry) : Except Unit Bool :=
  if entry.onlyAdds then blindAppend upperChar lowerChar (orEmpty (entry.commitInfo.getD .null))
  else .ok false

/-- The paths a winner adds that may hold rows the read did not see. -/
def newPaths (liveAtRead : List Path) (entry : Entry) : Except Unit (List Path) := do
  if ← entry.blind upperChar lowerChar then
    return []
  return (entry.adds.filter fun f => f.dataChange && f.path ∉ liveAtRead).map AddFile.path

def winners (read fresh : Log) : Log := fresh.drop (version read + 1)

variable (keeps : Text → AddFile → Bool)

/-- `_added_what_was_read`. -/
def addedWhatWasRead (read fresh : Log) (readPredicate : Option Text) : Except Unit Bool := do
  let liveAtRead := (files read).map AddFile.path
  let added := (← (winners read fresh).mapM (newPaths upperChar lowerChar liveAtRead)).flatten
  if added = [] then
    return false
  match readPredicate with
  | none => return true
  | some predicate =>
    let candidates := ((files fresh).filter (keeps predicate)).map AddFile.path
    let live := (files fresh).map AddFile.path
    return added.any (· ∈ candidates) || added.any (· ∉ live)

inductive RebaseError where
  /-- `MetadataChangedError`. -/
  | metadataChanged (version : Nat)
  /-- `CommitConflictError`. -/
  | conflict (version : Nat)
  deriving DecidableEq

/-- The vector a snapshot lists for a path. -/
def vectorOf (snapshot : Log) (path : Path) : Option (Option DeletionVector) :=
  ((files snapshot).filter fun f => f.path = path).getLast?.map AddFile.deletionVector

/-- Every file touched is listed in both snapshots, with one vector. -/
def vectorsUnchanged (read fresh : Log) (touched : List Path) : Bool :=
  touched.all fun path => (vectorOf read path).isSome && vectorOf read path = vectorOf fresh path

def serializable (snapshot : Log) : Bool :=
  ((tableProperties snapshot).get "delta.isolationLevel").any fun level =>
    Text.lower lowerChar level.toList = "serializable".toList

/-- `_rebase_dv_commit` once it has the latest snapshot: that snapshot, when the
commits that won left this one valid. -/
def rebaseDvCommit (read fresh : Log) (touched : List Path) (readPredicate : Option Text)
    (compaction : Bool) : Except RebaseError (Option Log) :=
  if version fresh ≤ version read then .ok none
  else if serializable lowerChar fresh && !compaction then .ok none
  else if !sameMetadata (metadata fresh) (metadata read) then
    if compaction then .ok none else .error (.metadataChanged (version fresh))
  else if protocol fresh ≠ protocol read then .ok none
  else if !vectorsUnchanged read fresh touched then .ok none
  else if compaction then .ok (some fresh)
  else
    match addedWhatWasRead upperChar lowerChar keeps read fresh readPredicate with
    | .error _ => .ok none
    | .ok true => .error (.conflict (version fresh))
    | .ok false => .ok (some fresh)

/-- The latest snapshot is returned only as it was read, and if everything the
commit rests on is unchanged in it. -/
theorem rebaseDvCommit_eq_some_iff {upperChar lowerChar : Char → Text}
    {keeps : Text → AddFile → Bool} {read fresh result : Log} {touched : List Path}
    {readPredicate : Option Text} {compaction : Bool} :
    rebaseDvCommit upperChar lowerChar keeps read fresh touched readPredicate compaction =
        .ok (some result) ↔
      result = fresh ∧ version read < version fresh ∧
        (serializable lowerChar fresh = true → compaction = true) ∧
        sameMetadata (metadata fresh) (metadata read) = true ∧ protocol fresh = protocol read ∧
        vectorsUnchanged read fresh touched = true ∧
        (compaction = true ∨
          addedWhatWasRead upperChar lowerChar keeps read fresh readPredicate = .ok false) := by
  unfold rebaseDvCommit
  by_cases hversion : version fresh ≤ version read
  · rw [if_pos hversion]
    simp [Nat.not_lt.mpr hversion]
  rw [if_neg hversion]
  have hlt : version read < version fresh := Nat.lt_of_not_le hversion
  by_cases hlevel : (serializable lowerChar fresh && !compaction) = true
  · rw [if_pos hlevel]
    simp only [Bool.and_eq_true, Bool.not_eq_true'] at hlevel
    simp [hlevel]
  rw [if_neg hlevel]
  have hlevel' : serializable lowerChar fresh = true → compaction = true := by
    simpa using hlevel
  by_cases hmetadata : sameMetadata (metadata fresh) (metadata read) = true
  · rw [if_neg (by simp [hmetadata])]
    by_cases hprotocol : protocol fresh = protocol read
    · rw [if_neg (by simp [hprotocol])]
      by_cases hvectors : vectorsUnchanged read fresh touched = true
      · rw [if_neg (by simp [hvectors])]
        cases compaction with
        | true =>
          simp only [if_pos, Except.ok.injEq, Option.some.injEq, true_or, and_true]
          constructor
          · rintro rfl
            exact ⟨rfl, hlt, fun _ => trivial, hmetadata, hprotocol, hvectors⟩
          · rintro ⟨rfl, -⟩
            rfl
        | false =>
          cases hadded : addedWhatWasRead upperChar lowerChar keeps read fresh readPredicate with
          | error e => simp
          | ok added =>
            cases added with
            | true => simp
            | false =>
              simp only [Bool.false_eq_true, if_false, Except.ok.injEq, Option.some.injEq,
                or_true, and_true]
              constructor
              · rintro rfl
                exact ⟨rfl, hlt, fun h => absurd (hlevel' h) (by simp), hmetadata, hprotocol,
                  hvectors⟩
              · rintro ⟨rfl, -⟩
                rfl
      · simp [hvectors]
    · simp [hprotocol]
  · rw [if_pos (by simpa using hmetadata)]
    cases compaction <;> simp [hmetadata]

theorem vectorsUnchanged_iff {read fresh : Log} {touched : List Path} :
    vectorsUnchanged read fresh touched = true ↔
      ∀ path ∈ touched, (vectorOf read path).isSome = true ∧
        vectorOf read path = vectorOf fresh path := by
  simp [vectorsUnchanged]

end

end DeltaSwamp.Table
