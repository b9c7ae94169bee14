import DeltaSwamp.Run
import DeltaSwamp.Text
import Mathlib.Data.List.ReduceOption

/-!
# Committing a distributed write

`WritePlan.commit` and `abort` in `distributed.py` over the kernel engine's
`commit_files` and `commits_adding`, for a table that exists. The log is the
list of its versions. A put of version `v` may land at any time while the log
ends before `v`, whatever its caller was told; any number of calls commit the
same fragments, interleaved with each other and with other writers.
-/

namespace DeltaSwamp.Distributed

abbrev Path := Text

/-- What one worker wrote. -/
structure Fragment where
  paths : List Path
  /-- The layout the files were written under; an older release recorded none. -/
  layout : Option Text
  writtenAt : Option Nat
  deriving DecidableEq

/-- The files a commit of the fragments adds. -/
def files (fragments : List Fragment) : List Path := fragments.flatMap Fragment.paths

/-- `_fragment_files`: the paths. -/
def fragmentPaths (fragments : List Fragment) : List Path := (files fragments).dedup

/-- `_fragment_files`: the earliest version the files were written at, if each is known. -/
def fragmentWrittenAt (fragments : List Fragment) : Option Nat :=
  if fragments.any fun f => f.writtenAt.isNone then none
  else (fragments.filterMap Fragment.writtenAt).min?

/-- One version of the log. -/
structure Entry where
  adds : List Path
  removes : List Path
  txns : List (Text × Int)
  /-- The layout of the version's metadata, if it sets it. -/
  layout : Option Text
  deriving DecidableEq

abbrev Log := List Entry

def newest (log : Log) : Nat := log.length - 1

def snapshotAt (log : Log) (version : Nat) : Log := log.take (version + 1)

def writeLayout (snapshot : Log) : Option Text := (snapshot.filterMap Entry.layout).getLast?

def appIdVersion (snapshot : Log) (app : Text) : Option Int :=
  ((snapshot.flatMap Entry.txns).filter fun t => t.1 = app).getLast?.map Prod.snd

def live (snapshot : Log) : List Path :=
  snapshot.foldl (fun paths e => paths.filter (· ∉ e.removes) ++ e.adds) []

structure Plan where
  version : Option Nat
  overwrite : Bool
  txn : Option (Text × Int)
  /-- Catalog-managed: read no further than the tail its catalog listed. -/
  managed : Bool
  /-- Whether the plan has the catalog to re-read the tail from. -/
  catalog : Bool
  tail : Nat
  deriving DecidableEq

/-- The arguments of one `commit`; `retries` is the number they come to. -/
structure Args where
  retries : Nat
  allowConcurrentOverwrite : Bool
  abortOnFailure : Bool
  deriving DecidableEq

inductive CommitError where
  /-- `MetadataChangedError`. -/
  | metadataChanged
  | refused
  deriving DecidableEq

section
variable (layoutStillFits : Text → Text → Bool) (plan : Plan) (fragments : List Fragment)

/-- `_refuse_changed_layout`, negated. -/
def layoutFits (snapshot : Log) : Bool :=
  match writeLayout snapshot with
  | none => true
  | some current =>
    fragments.all fun f => f.layout.all fun written => layoutStillFits written current

def txnDone (snapshot : Log) : Bool :=
  match plan.txn with
  | none => false
  | some (app, version) => (appIdVersion snapshot app).any fun last => version ≤ last

/-- `commit_files`, up to the put: what it puts after `snapshot`. -/
def commitFiles (snapshot : Log) : Except CommitError Entry :=
  if !layoutFits layoutStillFits fragments snapshot then .error .metadataChanged
  else if txnDone plan snapshot then .error .refused
  else if ¬ (files fragments).Nodup then .error .refused
  else if plan.overwrite && (files fragments).any (· ∈ live snapshot) then .error .refused
  else .ok {
    adds := files fragments
    removes := if plan.overwrite then live snapshot else []
    txns := plan.txn.toList
    layout := none }

/-- `commits_adding`, in a snapshot. -/
def commitsAdding (snapshot : Log) (after : Nat) (paths : List Path) : List (Nat × Nat) :=
  (snapshot.zipIdx.map fun e => (e.2, e.1.adds.countP (· ∈ paths))).filter fun c =>
    after < c.1 ∧ 0 < c.2

def landedAfter : Nat :=
  ([fragmentWrittenAt fragments, plan.version].reduceOption.min?).getD 0

/-- `_landed_version`, reading `snapshot`. -/
def landedVersion (snapshot : Log) : Except Unit (Option Nat) :=
  let paths := fragmentPaths fragments
  if paths = [] then .ok none
  else
    match commitsAdding snapshot (landedAfter plan fragments) paths with
    | [] => .ok none
    | [(version, n)] => if n = paths.length then .ok (some version) else .error ()
    | _ => .error ()

/-- `_with_fresh_tail`: the newest version the table lets a reader see. -/
def freshTail (log : Log) (tail : Nat) : Nat :=
  if plan.managed && plan.catalog then newest log else tail

/-- The version `engine.snapshot` reads. -/
def snapshotVersion (log : Log) (tail : Nat) : Nat :=
  if plan.managed then tail else newest log

/-- Without its catalog a managed table's tail stays as it was resolved. -/
def stale : Bool := plan.managed && !plan.catalog

def guarded (args : Args) : Bool := plan.overwrite && !args.allowConcurrentOverwrite

def pinned (args : Args) : Option Nat := if guarded plan args then plan.version else none

/-- `_refuse_if_the_table_moved` refuses. -/
def tableMoved (args : Args) (log : Log) (tail : Nat) : Bool :=
  guarded plan args && plan.version.any (· ≠ snapshotVersion plan log tail)

/-- A commit on its way to the log. -/
structure Put where
  version : Nat
  entry : Entry
  deriving DecidableEq

/-- Where a call is; `tail` is the one of its `table`, `checked` the version
its landed check read. -/
inductive Phase where
  | idle
  | refresh (attempt tail : Nat)
  | check (attempt tail : Nat)
  | guard (attempt tail checked : Nat)
  | resolve (attempt tail checked : Nat) (again : Bool)
  | ready (attempt tail checked : Nat) (again : Bool) (put : Put)
  | sent (attempt tail : Nat) (put : Put)
  /-- `_CertainFailure` -/
  | failed
  | aborting (tail : Nat)
  | deleting
  | returned (version : Nat)
  | raised
  deriving DecidableEq

/-- What the store or the catalog tells a call of its put. -/
inductive Answer where
  | accepted
  | conflict
  /-- `TransientCommitError`: the put may have landed, or may still land. -/
  | transient
  /-- `BackfillRequiredError`: the catalog refused the commit until its tail is published. -/
  | backfill
  deriving DecidableEq

/-- The version `commit_files` builds on. -/
def buildVersion (args : Args) (log : Log) (tail : Nat) : Nat :=
  (pinned plan args).getD (snapshotVersion plan log tail)

/-- What a call does next by itself. -/
def advance (args : Args) (log : Log) : Phase → Option Phase
  | .refresh n tail => some (.check n (freshTail plan log tail))
  | .check n tail =>
    let checked := snapshotVersion plan log tail
    match landedVersion plan fragments (snapshotAt log checked) with
    | .ok none => some (.guard n tail checked)
    | .ok (some version) => some (.returned version)
    | .error _ => some .raised
  | .guard n tail checked =>
    some (if tableMoved plan args log tail then .failed else .resolve n tail checked false)
  | .resolve n tail checked again =>
    let version := buildVersion plan args log tail
    match commitFiles layoutStillFits plan fragments (snapshotAt log version) with
    | .ok entry => some (.ready n tail checked again ⟨version + 1, entry⟩)
    | .error .metadataChanged => some .failed
    | .error .refused => some .raised
  | .failed =>
    some (if args.abortOnFailure && !stale plan then .aborting (freshTail plan log plan.tail)
      else .raised)
  | .aborting tail =>
    match landedVersion plan fragments (snapshotAt log (snapshotVersion plan log tail)) with
    | .ok none => some .deleting
    | _ => some .raised
  | _ => none

/-- What a call does with an answer. -/
def answered (args : Args) (log : Log) : Phase → Answer → Option Phase
  | .sent _ _ put, .accepted =>
    if log[put.version]? = some put.entry then some (.returned put.version) else none
  | .sent n tail put, .conflict =>
    if put.version < log.length then
      some (if stale plan || n = args.retries then .failed else .refresh (n + 1) tail)
    else none
  | .sent n tail _, .transient =>
    some (if stale plan || n = args.retries then .raised else .refresh (n + 1) tail)
  | .ready n _ checked again _, .backfill =>
    some (if plan.managed && plan.catalog && !again then .resolve n (newest log) checked true
      else .raised)
  | _, _ => none

def Phase.active : Phase → Bool
  | .idle | .returned _ | .raised => false
  | _ => true

structure Call where
  args : Args
  phase : Phase

structure World where
  log : Log
  /-- Every put made for the fragments. -/
  sent : List Put
  calls : Nat → Call
  /-- The fragments' files were deleted. -/
  deleted : Bool

inductive Event where
  /-- Another writer commits. -/
  | write (entry : Entry)
  | land (put : Put)
  | start (call : Nat) (args : Args)
  | go (call : Nat)
  /-- The guard cannot read the table's version, and lets the commit go on. -/
  | cannotTell (call : Nat)
  | send (call : Nat)
  | answer (call : Nat) (answer : Answer)
  | delete (call : Nat)
  /-- The call fails in any other way, or its process dies. -/
  | raise (call : Nat)
  deriving DecidableEq

/-- The call whose step an event is. -/
def Event.call : Event → Option Nat
  | .write _ | .land _ => none
  | .start i _ | .go i | .cannotTell i | .send i | .answer i _ | .delete i | .raise i => some i

def World.to (s : World) (call : Nat) (phase : Phase) : World :=
  { s with calls := Function.update s.calls call { s.calls call with phase } }

def next (s : World) : Event → Option World
  | .write entry =>
    if ∀ path ∈ fragmentPaths fragments, path ∉ entry.adds then
      some { s with log := s.log ++ [entry] }
    else none
  | .land put =>
    if put ∈ s.sent ∧ put.version = s.log.length then some { s with log := s.log ++ [put.entry] }
    else none
  | .start i args =>
    if (s.calls i).phase = .idle then
      some { s with calls := Function.update s.calls i ⟨args, .refresh 0 plan.tail⟩ }
    else none
  | .go i =>
    (advance layoutStillFits plan fragments (s.calls i).args s.log (s.calls i).phase).map (s.to i)
  | .cannotTell i =>
    match (s.calls i).phase with
    | .guard n tail checked => some (s.to i (.resolve n tail checked false))
    | _ => none
  | .send i =>
    match (s.calls i).phase with
    | .ready n tail _ _ put => some { s.to i (.sent n tail put) with sent := put :: s.sent }
    | _ => none
  | .answer i answer => (answered plan (s.calls i).args s.log (s.calls i).phase answer).map (s.to i)
  | .delete i =>
    if (s.calls i).phase = .deleting then some { s.to i .raised with deleted := true } else none
  | .raise i => if (s.calls i).phase.active then some (s.to i .raised) else none

/-- Before any call: the files are written, no version adds any of them, and
the plan was made at a version the log has. -/
structure Written (log : Log) : Prop where
  named : fragmentPaths fragments ≠ []
  nonempty : log ≠ []
  unlanded : ∀ e ∈ log, ∀ path ∈ fragmentPaths fragments, path ∉ e.adds
  planned : ∀ v, plan.version = some v → v < log.length
  writtenAt : ∀ v, fragmentWrittenAt fragments = some v → v < log.length
  tail : plan.managed = true → plan.tail < log.length
  tail_planned : plan.managed = true → ∀ v, plan.version = some v → v ≤ plan.tail

def World.init (log : Log) : World :=
  { log, sent := [], calls := fun _ => ⟨⟨0, false, true⟩, .idle⟩, deleted := false }

end

section
variable {layoutStillFits : Text → Text → Bool} {plan : Plan} {fragments : List Fragment}

/-- The next phase of a call, other than by a build, a put or the deletion. -/
inductive Move (layoutStillFits : Text → Text → Bool) (plan : Plan) (fragments : List Fragment)
    (args : Args) (log : Log) : Phase → Phase → Prop where
  | refresh (n tail : Nat) :
      Move layoutStillFits plan fragments args log (.refresh n tail)
        (.check n (freshTail plan log tail))
  | absent (n tail : Nat) :
      landedVersion plan fragments (snapshotAt log (snapshotVersion plan log tail)) = .ok none →
      Move layoutStillFits plan fragments args log (.check n tail)
        (.guard n tail (snapshotVersion plan log tail))
  | found (n tail version : Nat) :
      landedVersion plan fragments (snapshotAt log (snapshotVersion plan log tail)) =
        .ok (some version) →
      Move layoutStillFits plan fragments args log (.check n tail) (.returned version)
  | moved (n tail checked : Nat) : tableMoved plan args log tail = true →
      Move layoutStillFits plan fragments args log (.guard n tail checked) .failed
  | stayed (n tail checked : Nat) :
      Move layoutStillFits plan fragments args log (.guard n tail checked)
        (.resolve n tail checked false)
  | changed (n tail checked : Nat) (again : Bool) :
      commitFiles layoutStillFits plan fragments
          (snapshotAt log (buildVersion plan args log tail)) =
        .error .metadataChanged →
      Move layoutStillFits plan fragments args log (.resolve n tail checked again) .failed
  | accepted (n tail : Nat) (put : Put) : log[put.version]? = some put.entry →
      Move layoutStillFits plan fragments args log (.sent n tail put) (.returned put.version)
  | conflict (n tail : Nat) (put : Put) : put.version < log.length →
      Move layoutStillFits plan fragments args log (.sent n tail put) .failed
  | retry (n tail : Nat) (put : Put) :
      Move layoutStillFits plan fragments args log (.sent n tail put) (.refresh (n + 1) tail)
  | backfill (n tail checked : Nat) (again : Bool) (put : Put) :
      plan.catalog = true →
      Move layoutStillFits plan fragments args log (.ready n tail checked again put)
        (.resolve n (newest log) checked true)
  | abort : stale plan = false →
      Move layoutStillFits plan fragments args log .failed
        (.aborting (freshTail plan log plan.tail))
  | unlanded (tail : Nat) :
      landedVersion plan fragments (snapshotAt log (snapshotVersion plan log tail)) = .ok none →
      Move layoutStillFits plan fragments args log (.aborting tail) .deleting
  | raised (phase : Phase) : phase.active = true →
      Move layoutStillFits plan fragments args log phase .raised

inductive Step (layoutStillFits : Text → Text → Bool) (plan : Plan) (fragments : List Fragment)
    (s : World) : Event → World → Prop where
  | write (entry : Entry) : (∀ path ∈ fragmentPaths fragments, path ∉ entry.adds) →
      Step layoutStillFits plan fragments s (.write entry) { s with log := s.log ++ [entry] }
  | land (put : Put) : put ∈ s.sent → put.version = s.log.length →
      Step layoutStillFits plan fragments s (.land put) { s with log := s.log ++ [put.entry] }
  | start (i : Nat) (args : Args) : (s.calls i).phase = .idle →
      Step layoutStillFits plan fragments s (.start i args)
        { s with calls := Function.update s.calls i ⟨args, .refresh 0 plan.tail⟩ }
  | move (e : Event) (i : Nat) (phase : Phase) : e.call = some i →
      Move layoutStillFits plan fragments (s.calls i).args s.log (s.calls i).phase phase →
      Step layoutStillFits plan fragments s e (s.to i phase)
  | build (i n tail checked : Nat) (again : Bool) (entry : Entry) :
      (s.calls i).phase = .resolve n tail checked again →
      commitFiles layoutStillFits plan fragments
        (snapshotAt s.log (buildVersion plan (s.calls i).args s.log tail)) = .ok entry →
      Step layoutStillFits plan fragments s (.go i) (s.to i (.ready n tail checked again
        ⟨buildVersion plan (s.calls i).args s.log tail + 1, entry⟩))
  | send (i n tail checked : Nat) (again : Bool) (put : Put) :
      (s.calls i).phase = .ready n tail checked again put →
      Step layoutStillFits plan fragments s (.send i)
        { s.to i (.sent n tail put) with sent := put :: s.sent }
  | delete (i : Nat) : (s.calls i).phase = .deleting →
      Step layoutStillFits plan fragments s (.delete i) { s.to i .raised with deleted := true }

variable {args : Args} {log : Log} {phase phase' : Phase}

theorem Move.active (h : Move layoutStillFits plan fragments args log phase phase') :
    phase.active = true := by
  cases h with
  | raised _ hactive => exact hactive
  | _ => rfl

theorem Move.ne_ready (h : Move layoutStillFits plan fragments args log phase phase')
    (n tail checked : Nat) (again : Bool) (put : Put) :
    phase' ≠ .ready n tail checked again put := by
  rintro rfl
  cases h

/-- An advance moves the call, or builds its commit. -/
theorem move_of_advance (h : advance layoutStillFits plan fragments args log phase = some phase') :
    Move layoutStillFits plan fragments args log phase phase' ∨
      ∃ n tail checked again entry, phase = .resolve n tail checked again ∧
        commitFiles layoutStillFits plan fragments
          (snapshotAt log (buildVersion plan args log tail)) = .ok entry ∧
        phase' = .ready n tail checked again ⟨buildVersion plan args log tail + 1, entry⟩ := by
  cases phase with
  | refresh n tail =>
    cases h
    exact .inl (.refresh n tail)
  | check n tail =>
    simp only [advance] at h
    split at h
    · rename_i hlanded
      cases h
      exact .inl (.absent n tail hlanded)
    · rename_i version hlanded
      cases h
      exact .inl (.found n tail version hlanded)
    · cases h
      exact .inl (.raised _ rfl)
  | guard n tail checked =>
    simp only [advance] at h
    split_ifs at h with hmoved
    · cases h
      exact .inl (.moved n tail checked hmoved)
    · cases h
      exact .inl (.stayed n tail checked)
  | resolve n tail checked again =>
    simp only [advance] at h
    split at h
    · rename_i entry hbuilt
      cases h
      exact .inr ⟨n, tail, checked, again, entry, rfl, hbuilt, rfl⟩
    · rename_i hchanged
      cases h
      exact .inl (.changed n tail checked again hchanged)
    · cases h
      exact .inl (.raised _ rfl)
  | failed =>
    simp only [advance] at h
    split_ifs at h with habort
    · cases h
      simp only [Bool.and_eq_true, Bool.not_eq_true'] at habort
      exact .inl (.abort habort.2)
    · cases h
      exact .inl (.raised _ rfl)
  | aborting tail =>
    simp only [advance] at h
    split at h
    · rename_i hlanded
      cases h
      exact .inl (.unlanded tail hlanded)
    · cases h
      exact .inl (.raised _ rfl)
  | _ => cases h

theorem move_of_answered {answer : Answer} (h : answered plan args log phase answer = some phase') :
    Move layoutStillFits plan fragments args log phase phase' := by
  cases phase with
  | sent n tail put =>
    cases answer with
    | accepted =>
      simp only [answered] at h
      split_ifs at h with hlanded
      cases h
      exact .accepted n tail put hlanded
    | conflict =>
      simp only [answered] at h
      split_ifs at h with hoccupied hlast
      · cases h
        exact .conflict n tail put hoccupied
      · cases h
        exact .retry n tail put
    | transient =>
      simp only [answered] at h
      split_ifs at h
      · cases h
        exact .raised _ rfl
      · cases h
        exact .retry n tail put
    | backfill => cases h
  | ready n tail checked again put =>
    cases answer with
    | backfill =>
      simp only [answered] at h
      split_ifs at h with hcatalog
      · cases h
        simp only [Bool.and_eq_true] at hcatalog
        exact .backfill n tail checked again put hcatalog.1.2
      · cases h
        exact .raised _ rfl
    | _ => cases h
  | _ => cases answer <;> cases h

/-- Every event is one of the steps. -/
theorem step_of_next {s t : World} {e : Event}
    (h : next layoutStillFits plan fragments s e = some t) :
    Step layoutStillFits plan fragments s e t := by
  cases e with
  | write entry =>
    simp only [next] at h
    split_ifs at h with hother
    cases h
    exact .write entry hother
  | land put =>
    simp only [next] at h
    split_ifs at h with hfree
    cases h
    exact .land put hfree.1 hfree.2
  | start i args =>
    simp only [next] at h
    split_ifs at h with hidle
    cases h
    exact .start i args hidle
  | go i =>
    obtain ⟨phase, hphase, rfl⟩ := Option.map_eq_some_iff.mp h
    rcases move_of_advance hphase with hmove | ⟨n, tail, checked, again, entry, hat, hbuilt, rfl⟩
    · exact .move _ i phase rfl hmove
    · exact .build i n tail checked again entry hat hbuilt
  | cannotTell i =>
    simp only [next] at h
    split at h
    · rename_i n tail checked hphase
      cases h
      refine .move _ i _ rfl ?_
      rw [hphase]
      exact .stayed n tail checked
    · cases h
  | send i =>
    simp only [next] at h
    split at h
    · rename_i n tail checked again put hphase
      cases h
      exact .send i n tail checked again put hphase
    · cases h
  | answer i answer =>
    obtain ⟨phase, hphase, rfl⟩ := Option.map_eq_some_iff.mp h
    exact .move _ i phase rfl (move_of_answered hphase)
  | delete i =>
    simp only [next] at h
    split_ifs at h with hdeleting
    cases h
    exact .delete i hdeleting
  | raise i =>
    simp only [next] at h
    split_ifs at h with hactive
    cases h
    exact .move _ i _ rfl (.raised _ hactive)

end

end DeltaSwamp.Distributed
