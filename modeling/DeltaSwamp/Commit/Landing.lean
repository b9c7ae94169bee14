import DeltaSwamp.Commit.Error

/-!
# Files of a commit that may have landed

Which failed attempts keep the data files they wrote, and which keep the
deletion-vector file, when the attempt may have been applied after all.

The files a commit attempt wrote, and the two places that delete them again:
`stage_and_commit` and the last steps of `commit_dml`. Objects are named as
the `add` actions name them, relative to the table root.
-/

namespace DeltaSwamp.Commit

/-- The table's object store as a deletion meets it: none registered for the
root, or what a DELETE of one object answers. -/
abbrev Deleter := Option (Text → Except Text Unit)

def Deleter.deletes (deleter : Deleter) (path : Text) : Bool :=
  match deleter with
  | none => false
  | some delete => (delete path).isOk

/-- What a DELETE's answer adds to the failures: a file already gone is none. -/
def deleteFailure (path : Text) : Except Text Unit → Option Text
  | .ok () => none
  | .error e =>
    if Text.contains e "not found".toList || Text.contains e "NotFound".toList then none
    else some (path ++ ": ".toList ++ e)

/-- `remove_written`: what is left of `objects`, and the failures reported. -/
def removeWritten (deleter : Deleter) (objects written : List Text) : List Text × List Text :=
  match deleter with
  | none => (objects, written)
  | some delete =>
    (objects.filter fun path => !(written.contains path && (delete path).isOk),
      written.filterMap fun path => deleteFailure path (delete path))

theorem mem_removeWritten (deleter : Deleter) (objects written : List Text) (path : Text) :
    path ∈ (removeWritten deleter objects written).1 ↔
      path ∈ objects ∧ ¬ (path ∈ written ∧ deleter.deletes path = true) := by
  cases deleter with
  | none => simp [removeWritten, Deleter.deletes]
  | some delete => simp [removeWritten, Deleter.deletes, imp_iff_not_or]

section
variable (lowerChar : Char → Text) (deleter : Deleter) (objects written : List Text)

/-- `stage_and_commit`: its result and the store it leaves. `written` is what
`stage` wrote before it returned, `commit` the kernel's answer. -/
def stageAndCommit (stage : Except NativeError Unit)
    (commit : Except KernelError CommitResult) : Except NativeError Version × List Text :=
  let objects := written ++ objects
  match stage with
  | .error err => (.error err, (removeWritten deleter objects written).1)
  | .ok () =>
    match finishCommitAs lowerChar commit with
    | .error err =>
      (.error err,
        if neverCommitted err then (removeWritten deleter objects written).1 else objects)
    | .ok version => (.ok version, objects)

/-- `commit_dml` from the upload of its deletion vectors on: `vector` is the
new vector file, if any, and `upload` what its PUT returned. -/
def landDml (vector : Option Text) (upload staged : Except NativeError Unit)
    (commit : Except KernelError CommitResult) : Except NativeError Version × List Text :=
  match vector, upload with
  -- `put_new_file(..)?`: nothing is staged yet.
  | some _, .error err => (.error err, objects)
  | _, _ =>
    let objects := written ++ (vector.toList ++ objects)
    match staged.bind fun _ => finishCommitAs lowerChar commit with
    | .ok version => (.ok version, objects)
    | .error err =>
      -- `staging_failed || never_committed(err)` guards the data files alone.
      let objects :=
        if !staged.isOk || neverCommitted err then (removeWritten deleter objects written).1
        else objects
      (.error err, (removeWritten deleter objects vector.toList).1)

end

/-- How the request of an attempt ended, as the server and the network know it. -/
inductive Answer where
  /-- No request was sent. -/
  | unsent
  | status (code : Nat)
  | timedOut
  /-- The connection or the store failed before an answer arrived. -/
  | broken
  deriving DecidableEq, Repr

/-- The statuses that refuse a commit for certain. -/
def refusals : List Nat := [401, 403, 404, 409, 412, 429]

def Answer.certain : Answer → Bool
  | .unsent => true
  | .status code => code ∈ refusals
  | .timedOut | .broken => false

/-- The server-side outcomes an answer leaves possible for a failed attempt. -/
def Answer.Allows (answer : Answer) (applied : Bool) : Prop :=
  answer.certain = true → applied = false

theorem Answer.allows_applied_iff (answer : Answer) :
    answer.Allows true ↔ answer.certain = false := by
  cases h : answer.certain <;> simp [Answer.Allows, h]

section
variable (lowerChar : Char → Text)

/-- If some outcome the answer allows applied the commit, its error is not
taken for one that never committed and neither caller deletes a data file. -/
def DataFilesKept (answer : Answer) (commit : Except KernelError CommitResult) : Prop :=
  ∀ applied err, finishCommitAs lowerChar commit = .error err →
    answer.Allows applied → applied = true →
    neverCommitted err = false ∧
    ∀ deleter objects written, ∀ path ∈ written,
      path ∈ (stageAndCommit lowerChar deleter objects written (.ok ()) commit).2 ∧
      ∀ vector, vector ≠ some path →
        path ∈ (landDml lowerChar deleter objects written vector (.ok ()) (.ok ()) commit).2

/-- A message read as none of the failures that delete: a status other than
401, 403, 404, 409, 429 and 5xx, or no status and none of the texts. -/
def messageKeepsFiles (message : Text) : Bool :=
  let lowered := Text.lower lowerChar message
  match httpStatus lowered with
  | some status => status ∉ [401, 403, 404, 409, 429] ∧ ¬ (500 ≤ status ∧ status ≤ 599)
  | none =>
    (classifyWords lowered message).isNone && !saysTimeout lowered && !saysBackfill lowered &&
      !saysConflict lowered

def keepsFiles : Except KernelError CommitResult → Bool
  | .ok (.committed _) => true
  | .ok _ => false
  | .error (.objectStore error _) => error ≠ .precondition
  | .error (.ioError _) | .error (.fileNotFound _) => true
  | .error (.other message) => messageKeepsFiles lowerChar message

theorem neverCommitted_classifyStatus (status : Nat) (message : Text) :
    neverCommitted (classifyStatus status message) = false ↔
      status ∉ [401, 403, 404, 409, 429] ∧ ¬ (500 ≤ status ∧ status ≤ 599) := by
  unfold classifyStatus
  split_ifs <;> simp [neverCommitted] <;> omega

theorem neverCommitted_classifyWords {lowered message : Text} {error : NativeError}
    (h : classifyWords lowered message = some error) : neverCommitted error = true := by
  unfold classifyWords at h
  split_ifs at h <;> cases h <;> rfl

theorem neverCommitted_classifyCommitError (message : Text) :
    neverCommitted (classifyCommitError lowerChar message) = false ↔
      messageKeepsFiles lowerChar message = true := by
  unfold classifyCommitError messageKeepsFiles
  cases hs : httpStatus (Text.lower lowerChar message) with
  | some status =>
    simp only [hs, decide_eq_true_eq]
    exact neverCommitted_classifyStatus status message
  | none =>
    cases hw : classifyWords (Text.lower lowerChar message) message with
    | some error => simp [hs, hw, neverCommitted_classifyWords hw]
    | none =>
      cases ht : saysTimeout (Text.lower lowerChar message) <;>
        cases hb : saysBackfill (Text.lower lowerChar message) <;>
        cases hc : saysConflict (Text.lower lowerChar message) <;>
        simp [hs, hw, ht, hb, hc, neverCommitted]

theorem keepsFiles_iff (commit : Except KernelError CommitResult) :
    keepsFiles lowerChar commit = true ↔
      ∀ err, finishCommitAs lowerChar commit = .error err → neverCommitted err = false := by
  cases commit with
  | ok result => cases result <;> simp [keepsFiles, finishCommitAs, neverCommitted]
  | error error =>
    cases error with
    | objectStore error shown =>
      cases error <;>
        simp [keepsFiles, finishCommitAs, classifyKernelCommitError, neverCommitted]
    | ioError shown => simp [keepsFiles, finishCommitAs, classifyKernelCommitError, neverCommitted]
    | fileNotFound shown =>
      simp [keepsFiles, finishCommitAs, classifyKernelCommitError, neverCommitted]
    | other shown =>
      simp [keepsFiles, finishCommitAs, classifyKernelCommitError,
        neverCommitted_classifyCommitError]

theorem written_kept {commit : Except KernelError CommitResult} {err : NativeError}
    (hf : finishCommitAs lowerChar commit = .error err) (hn : neverCommitted err = false)
    (deleter : Deleter) (objects written : List Text) {path : Text} (hp : path ∈ written) :
    path ∈ (stageAndCommit lowerChar deleter objects written (.ok ()) commit).2 ∧
      ∀ vector, vector ≠ some path →
        path ∈ (landDml lowerChar deleter objects written vector (.ok ()) (.ok ()) commit).2 := by
  constructor
  · simp [stageAndCommit, hf, hn, hp]
  · intro vector hv
    have hnot : path ∉ vector.toList := by simpa [eq_comm] using hv
    simp [landDml, Except.bind, hf, hn, mem_removeWritten, hp, hnot, Except.isOk, Except.toBool]

theorem dataFilesKept_iff (answer : Answer) (commit : Except KernelError CommitResult) :
    DataFilesKept lowerChar answer commit ↔
      answer.certain = true ∨ keepsFiles lowerChar commit = true := by
  constructor
  · intro h
    cases hc : answer.certain
    · right
      rw [keepsFiles_iff]
      intro err hf
      exact (h true err hf ((answer.allows_applied_iff).mpr hc) rfl).1
    · exact .inl rfl
  · rintro h applied err hf hallows rfl
    have hc := (answer.allows_applied_iff).mp hallows
    have hk : keepsFiles lowerChar commit = true := by simpa [hc] using h
    have hn := (keepsFiles_iff lowerChar commit).mp hk err hf
    exact ⟨hn, fun deleter objects written path hp =>
      written_kept lowerChar hf hn deleter objects written hp⟩

end

def asciiLower (c : Char) : Text := [c.toLower]

def unavailable : Except KernelError CommitResult :=
  .error (.other "UC update_table error: HTTP error (status 503): Service Unavailable".toList)

/-- A catalog that answers 503 may have ratified the commit; its files go. -/
theorem serverError_deletes_dataFiles :
    ¬ DataFilesKept asciiLower (.status 503) unavailable := by
  intro h
  have hk : keepsFiles asciiLower unavailable = true := by
    rw [keepsFiles_iff]
    intro err hf
    exact (h true err hf ((Answer.allows_applied_iff _).mpr (by decide)) rfl).1
  exact absurd hk (by decide)

section
variable (lowerChar : Char → Text) (deleter : Deleter) (objects written : List Text)
  (vector : Text) (staged : Except NativeError Unit) (commit : Except KernelError CommitResult)
  (answer : Answer)

/-- What a run of `commit_dml` that uploaded its vector may have done to the log. -/
def MayApply (applied : Bool) : Prop :=
  match staged, commit with
  | .error _, _ => applied = false
  | .ok (), .ok (.committed _) => applied = true
  | .ok (), _ => answer.Allows applied

/-- A vector file whose commit may have been applied is still there at the end;
that is, it is only removed when no outcome left open applied the commit. -/
def VectorKept : Prop :=
  MayApply staged commit answer true →
    vector ∈ (landDml lowerChar deleter objects written (some vector) (.ok ()) staged commit).2

theorem finishCommitAs_ok_iff (version : Version) :
    finishCommitAs lowerChar commit = .ok version ↔ commit = .ok (.committed version) := by
  cases commit with
  | ok result => cases result <;> simp [finishCommitAs]
  | error error => simp [finishCommitAs]

theorem vector_mem_landDml_of_error {err : NativeError}
    (hf : staged.bind (fun _ => finishCommitAs lowerChar commit) = .error err) :
    vector ∈ (landDml lowerChar deleter objects written (some vector) (.ok ()) staged commit).2 →
      deleter.deletes vector = false := by
  intro hmem
  simp only [landDml, hf, mem_removeWritten, Option.toList_some, List.mem_singleton,
    true_and] at hmem
  simpa using hmem.2

theorem vector_mem_landDml_of_undeleted (hd : deleter.deletes vector = false) :
    vector ∈
      (landDml lowerChar deleter objects written (some vector) (.ok ()) staged commit).2 := by
  simp only [landDml]
  cases staged.bind fun _ => finishCommitAs lowerChar commit with
  | ok version => simp
  | error err =>
    simp only [mem_removeWritten, hd, Bool.false_eq_true, and_false, not_false_eq_true, and_true]
    split_ifs <;> simp [mem_removeWritten, hd]

theorem vectorKept_iff :
    VectorKept lowerChar deleter objects written vector staged commit answer ↔
      staged.isOk = false ∨ (∃ version, commit = .ok (.committed version)) ∨
        answer.certain = true ∨ deleter.deletes vector = false := by
  constructor
  · intro h
    by_contra hnot
    simp only [not_or, not_exists, Bool.not_eq_false, Bool.not_eq_true] at hnot
    obtain ⟨hstaged, hcommit, hcertain, hdeletes⟩ := hnot
    cases staged with
    | error err => simp [Except.isOk, Except.toBool] at hstaged
    | ok _ =>
      have hmay : MayApply (.ok ()) commit answer true := by
        have hallows := answer.allows_applied_iff.mpr hcertain
        unfold MayApply
        split <;> simp_all
      cases hf : finishCommitAs lowerChar commit with
      | ok version => exact hcommit version ((finishCommitAs_ok_iff lowerChar commit version).mp hf)
      | error err =>
        have hkept := vector_mem_landDml_of_error lowerChar deleter objects written vector (.ok ())
          commit (by simpa [Except.bind] using hf) (h hmay)
        simp [hkept] at hdeletes
  · rintro (hstaged | ⟨version, rfl⟩ | hcertain | hdeletes) hmay
    · cases staged with
      | error err => simp [MayApply] at hmay
      | ok _ => simp [Except.isOk, Except.toBool] at hstaged
    · cases staged with
      | error err => simp [MayApply] at hmay
      | ok _ => simp [landDml, Except.bind, finishCommitAs]
    · cases staged with
      | error err => simp [MayApply] at hmay
      | ok _ =>
        unfold MayApply at hmay
        split at hmay
        · simp at hmay
        · simp [landDml, Except.bind, finishCommitAs]
        · simp [Answer.Allows, hcertain] at hmay
    · exact vector_mem_landDml_of_undeleted lowerChar deleter objects written vector staged commit
        hdeletes

end

/-- A log PUT whose connection breaks may have landed; its vector file goes. -/
theorem brokenPut_deletes_vector :
    ¬ VectorKept asciiLower (some fun _ => .ok ()) ["part-0.parquet".toList] []
      "deletion_vector_0.bin".toList (.ok ())
      (.error (.ioError "connection reset by peer".toList)) .broken := by
  intro h
  have hmay : MayApply (.ok ()) (.error (.ioError "connection reset by peer".toList))
      .broken true := by simp [MayApply, Answer.allows_applied_iff, Answer.certain]
  have hkept := vector_mem_landDml_of_error _ _ _ _ _ _ _ (by rfl) (h hmay)
  exact absurd hkept (by decide)

end DeltaSwamp.Commit
