import DeltaSwamp.CommitTime.Monotone

/-!
# The commits a change feed reads

`resolve_range` of `changes.rs`: the versions a feed starts and ends at, where
these are given as times. Whatever the state of in-commit timestamps, it is a
search over the commits' times.
-/

namespace DeltaSwamp.CommitTime

open Commit Result

/-- A change feed's `Range`, as its caller gives it. -/
structure Range where
  startVersion : Option Version
  endVersion : Option Version
  startTimestampMs : Option Int
  endTimestampMs : Option Int

/-- How a `NativeError` renders. -/
def shown : NativeError → Text
  | .kernel error =>
    "delta kernel error: ".toList ++ match error with
      | .objectStore _ text | .ioError text | .fileNotFound text | .other text => text
  | .objectStore _ text => "object store error: ".toList ++ text
  | .arrow text => "arrow error: ".toList ++ text
  | .url text => "invalid url: ".toList ++ text
  | .invalid text | .commitConflict text | .backfillRequired text | .retryable text
  | .catalogPermission text | .catalogNotFound text | .catalogRejected text => text

/-- `version_at`: `lookup`, a time that names no commit being an error. -/
def versionAt (snapshot : Snapshot) (history : History) (timestamp : Int) (bound : Bound)
    (commitType : HistoryCommitType) : Except NativeError (Version × Int) := do
  match ← lookup snapshot history timestamp bound commitType with
  | .ok found => .ok found
  | .error outOfRange => .error (.invalid outOfRange)

/-- The end of a range that a bound resolves. -/
def Bound.name : Bound → String
  | .atOrAfter => "start"
  | .atOrBefore => "end"

def Bound.side : Bound → String
  | .atOrAfter => "after"
  | .atOrBefore => "before"

/-- `after_latest`. -/
def afterLatest (latest : Version) (latestTime timestamp : Int) (bound : Bound) : NativeError :=
  .invalid ("the " ++ bound.name ++ " timestamp " ++ toString timestamp ++
    " ms is after the latest commit (version " ++ toString latest ++ ", at " ++
    toString latestTime ++ " ms), so no version of the table exists at that time " ++
    "(DELTA_TIMESTAMP_GREATER_THAN_COMMIT)").toList

/-- One end of a range, given as a time: `after_latest`, else `resolve`. -/
def boundVersion (latest : Snapshot) (history : History) (latestTime timestamp : Int)
    (bound : Bound) : Except NativeError Version :=
  if latestTime < timestamp then .error (afterLatest latest.version latestTime timestamp bound)
  else
    match versionAt latest history timestamp bound .published with
    | .ok found => .ok found.1
    | .error e =>
      .error (.invalid (("no commit at or " ++ bound.side ++ " " ++ bound.name ++ " timestamp " ++
        toString timestamp ++ " ms: ").toList ++ shown e))

/-- `start`. -/
def Range.start (range : Range) (latest : Snapshot) (history : History) (latestTime : Int) :
    Except NativeError Version :=
  match range.startTimestampMs with
  | some timestamp => boundVersion latest history latestTime timestamp .atOrAfter
  | none => .ok (range.startVersion.getD 0)

/-- `end`. -/
def Range.stop (range : Range) (latest : Snapshot) (history : History) (latestTime : Int) :
    Except NativeError (Option Version) :=
  match range.endTimestampMs with
  | some timestamp => (boundVersion latest history latestTime timestamp .atOrBefore).map some
  | none => .ok range.endVersion

/-- `resolve_range`, with the snapshot that it builds of the latest version. -/
def resolveRange (latest : Except NativeError Snapshot) (history : History)
    (ownTime : Version → Except NativeError Int) (range : Range) :
    Except NativeError (Version × Option Version) :=
  if range.startVersion.isSome && range.startTimestampMs.isSome then
    .error (.invalid "pass start_version or start_timestamp_ms, not both".toList)
  else if range.endVersion.isSome && range.endTimestampMs.isSome then
    .error (.invalid "pass end_version or end_timestamp_ms, not both".toList)
  else if range.startTimestampMs.isNone && range.endTimestampMs.isNone then
    .ok (range.startVersion.getD 0, range.endVersion)
  else do
    let latest ← latest
    let latestTime ← commitTime latest history ownTime
    let start ← range.start latest history latestTime
    let stop ← range.stop latest history latestTime
    if stop.any (· < start) then
      .error (.invalid ("the requested range resolves to start version " ++ toString start ++
        " after end version " ++ toString (stop.getD 0) ++ "; no commit falls inside it").toList)
    else .ok (start, stop)

/-- The commit is not before the start that the caller gave. -/
def Range.From (range : Range) (commit : Version × Int) : Prop :=
  (∀ version ∈ range.startVersion, version ≤ commit.1) ∧
    ∀ time ∈ range.startTimestampMs, time ≤ commit.2

/-- The commit is not after the end that the caller gave. -/
def Range.UpTo (range : Range) (commit : Version × Int) : Prop :=
  (∀ version ∈ range.endVersion, commit.1 ≤ version) ∧
    ∀ time ∈ range.endTimestampMs, commit.2 ≤ time

/-- Each end is given at most once. -/
def Range.Once (range : Range) : Prop :=
  (range.startVersion = none ∨ range.startTimestampMs = none) ∧
    (range.endVersion = none ∨ range.endTimestampMs = none)

/-- The commits of a log whose times are all their own. -/
def ownTimes (first latest : Version) (inCommit : Version → Int) : Set (Version × Int) :=
  {c | first ≤ c.1 ∧ c.1 ≤ latest ∧ c.2 = inCommit c.1}

/-- The times of a log's commits, at the latest version, and those a search from a time on goes
over: by the files until in-commit timestamps are enabled, if they are, from there on by the
commits themselves; or by these from creation on. The kernel's search is right. -/
inductive Dated (history : History) (ownTime : Version → Except NativeError Int) :
    Snapshot → Set (Version × Int) → (Int → Set (Version × Int)) → Prop where
  | log {log : Log} (h : Kernel log history ownTime) :
      Dated history ownTime (log.snapshot log.latest) log.times log.timesFrom
  | fromCreation {first latest : Version} {inCommit : Version → Int}
      (before : ∀ time found, history.latestVersionAsOf time .published = .ok found ↔
        IsLastBy (ownTimes first latest inCommit) time found)
      (after : ∀ time found, history.firstVersionAfter time .published = .ok found ↔
        IsFirstFrom (ownTimes first latest inCommit) time found) :
      Dated history ownTime ⟨latest, true, none, none⟩ (ownTimes first latest inCommit)
        fun _ => ownTimes first latest inCommit

/-- The commits that a search from the range's start goes over. A commit timed by its file at or
after the time in-commit timestamps start at is none of a search from there on. -/
def Range.searched (range : Range) (times : Set (Version × Int))
    (timesFrom : Int → Set (Version × Int)) : Set (Version × Int) :=
  {c ∈ times | ∀ time ∈ range.startTimestampMs, c ∈ timesFrom time}

/-- Later versions are not of earlier times. -/
def Rises (times : Set (Version × Int)) : Prop :=
  ∀ c ∈ times, ∀ d ∈ times, c.1 ≤ d.1 → c.2 ≤ d.2

/-- What a lookup answers is a search over the times. -/
structure Searches (latest : Snapshot) (history : History) (times : Set (Version × Int))
    (timesFrom : Int → Set (Version × Int)) : Prop where
  before : ∀ time found,
    lookup latest history time .atOrBefore .published = .ok (.ok found) ↔ IsLastBy times time found
  after : ∀ time found, lookup latest history time .atOrAfter .published = .ok (.ok found) ↔
    IsFirstFrom (timesFrom time) time found
  within : ∀ time, timesFrom time ⊆ times
  version_le : ∀ c ∈ times, c.1 ≤ latest.version

section
variable {log : Log} {history : History} {ownTime : Version → Except NativeError Int}
  {range : Range} {latest : Snapshot} {latestTime time : Int} {version start : Version}
  {stop : Option Version} {commit : Version × Int}

theorem boundVersion_eq_ok {bound : Bound} :
    boundVersion latest history latestTime time bound = .ok version ↔ time ≤ latestTime ∧
      ∃ found, lookup latest history time bound .published = .ok (.ok found) ∧
        found.1 = version := by
  unfold boundVersion versionAt
  split_ifs with hlate
  · simp [Int.not_le.mpr hlate]
  · have htime : time ≤ latestTime := Int.not_lt.mp hlate
    cases hlookup : lookup latest history time bound .published with
    | error e =>
      have hfail : ((Except.error e : Except NativeError (Except Text (Version × Int))) >>=
        fun found => match found with
          | .ok found => Except.ok found
          | .error outOfRange => .error (.invalid outOfRange)) = .error e := rfl
      simp [hfail]
    | ok found =>
      rw [ok_bind]
      cases found with
      | error text => simp
      | ok found => simp [htime]

theorem lookup_of_boundVersion {bound : Bound}
    (h : boundVersion latest history latestTime time bound = .ok version) : time ≤ latestTime ∧
      ∃ found, lookup latest history time bound .published = .ok (.ok found) ∧
        found.1 = version :=
  boundVersion_eq_ok.mp h

theorem boundVersion_of_lookup {bound : Bound} {found : Version × Int} (htime : time ≤ latestTime)
    (h : lookup latest history time bound .published = .ok (.ok found)) :
    boundVersion latest history latestTime time bound = .ok found.1 :=
  boundVersion_eq_ok.mpr ⟨htime, found, h, rfl⟩

theorem Log.timesFrom_subset : log.timesFrom time ⊆ log.times := by
  unfold Log.timesFrom
  split_ifs with hcovers
  · exact Set.subset_union_right
  · exact subset_rfl

theorem resolveRange_untimed (hstart : range.startTimestampMs = none)
    (hend : range.endTimestampMs = none) (found : Except NativeError Snapshot) :
    resolveRange found history ownTime range =
      .ok (range.startVersion.getD 0, range.endVersion) := by
  simp [resolveRange, hstart, hend]

theorem resolveRange_timed (honce : range.Once)
    (htimed : range.startTimestampMs ≠ none ∨ range.endTimestampMs ≠ none)
    (hlatest : commitTime latest history ownTime = .ok latestTime) :
    resolveRange (.ok latest) history ownTime range = .ok (start, stop) ↔
      range.start latest history latestTime = .ok start ∧
        range.stop latest history latestTime = .ok stop ∧ ∀ last ∈ stop, start ≤ last := by
  have hstart : (range.startVersion.isSome && range.startTimestampMs.isSome) = false := by
    rcases honce.1 with h | h <;> simp [h]
  have hend : (range.endVersion.isSome && range.endTimestampMs.isSome) = false := by
    rcases honce.2 with h | h <;> simp [h]
  have hnone : (range.startTimestampMs.isNone && range.endTimestampMs.isNone) = false := by
    rcases htimed with h | h <;> simp [Option.isNone_eq_false_iff, Option.isSome_iff_ne_none, h]
  unfold resolveRange
  rw [hstart, hend, hnone, if_neg Bool.false_ne_true, if_neg Bool.false_ne_true,
    if_neg Bool.false_ne_true, ok_bind, hlatest, ok_bind]
  simp only [bind_eq_ok_iff]
  constructor
  · rintro ⟨start', hstart', stop', hstop', h⟩
    split_ifs at h with hafter
    obtain ⟨rfl, rfl⟩ := Prod.mk.inj (Except.ok.inj h)
    refine ⟨hstart', hstop', ?_⟩
    intro last hlast
    cases hlast
    simpa using hafter
  · rintro ⟨hstart', hstop', hle⟩
    refine ⟨start, hstart', stop, hstop', if_neg ?_⟩
    cases stop with
    | none => simp
    | some last => simpa using hle last rfl

theorem none_or_none {α β : Type} {a : Option α} {b : Option β}
    (h : ¬ (a.isSome && b.isSome) = true) : a = none ∨ b = none := by
  cases a with
  | none => exact .inl rfl
  | some a => exact .inr (by simpa using h)

theorem once_of_resolved {found : Except NativeError Snapshot}
    (h : resolveRange found history ownTime range = .ok (start, stop)) : range.Once := by
  unfold resolveRange at h
  by_cases hstart : (range.startVersion.isSome && range.startTimestampMs.isSome) = true
  · rw [if_pos hstart] at h
    cases h
  by_cases hend : (range.endVersion.isSome && range.endTimestampMs.isSome) = true
  · rw [if_neg hstart, if_pos hend] at h
    cases h
  exact ⟨none_or_none hstart, none_or_none hend⟩

theorem ends_of_resolved (hlatest : commitTime latest history ownTime = .ok latestTime)
    (h : resolveRange (.ok latest) history ownTime range = .ok (start, stop)) :
    range.start latest history latestTime = .ok start ∧
      range.stop latest history latestTime = .ok stop := by
  have honce := once_of_resolved h
  by_cases htimed : range.startTimestampMs ≠ none ∨ range.endTimestampMs ≠ none
  · obtain ⟨hstart, hstop, -⟩ := (resolveRange_timed honce htimed hlatest).mp h
    exact ⟨hstart, hstop⟩
  · obtain ⟨hstart, hend⟩ := not_or.mp htimed
    rw [not_not] at hstart hend
    rw [resolveRange_untimed hstart hend] at h
    obtain ⟨rfl, rfl⟩ := Prod.mk.inj (Except.ok.inj h)
    exact ⟨by simp [Range.start, hstart], by simp [Range.stop, hend]⟩

theorem start_early (h : range.start latest history latestTime = .ok start) :
    ∀ time ∈ range.startTimestampMs, time ≤ latestTime := by
  intro time htime
  unfold Range.start at h
  rw [htime] at h
  exact (lookup_of_boundVersion h).1

theorem stop_early (h : range.stop latest history latestTime = .ok stop) :
    ∀ time ∈ range.endTimestampMs, time ≤ latestTime := by
  intro time htime
  unfold Range.stop at h
  rw [htime] at h
  obtain ⟨version, hversion, -⟩ := map_eq_ok_iff.mp h
  exact (lookup_of_boundVersion hversion).1

theorem Log.version_le (h : commit ∈ log.times) : commit.1 ≤ log.latest := by
  rcases h with hfile | ⟨enabled, start, -, -, hle, -⟩
  · have hversion : commit.1 ∈ log.fileTimed.map Prod.fst := by
      rw [← monotonizeFrom_versions i64Min]
      exact List.mem_map_of_mem hfile
    obtain ⟨file, hfile, hsame⟩ := List.mem_map.mp hversion
    rw [← hsame]
    simpa using List.mem_takeWhile_imp (lastRun_mem (log.fileTimed_run hfile))
  · exact hle

theorem exists_firstFrom {commits : Set (Version × Int)} (h : commit ∈ commits)
    (htime : time ≤ commit.2) : ∃ found, IsFirstFrom commits time found := by
  classical
  have hsome : ∃ v, ∃ c ∈ commits, time ≤ c.2 ∧ c.1 = v := ⟨_, commit, h, htime, rfl⟩
  obtain ⟨found, hfound, hfrom, hversion⟩ := Nat.find_spec hsome
  refine ⟨found, hfound, hfrom, ?_⟩
  intro c hc hle
  rw [hversion]
  exact Nat.find_min' hsome ⟨c, hc, hle, rfl⟩

theorem exists_lastBy {commits : Set (Version × Int)} (h : commit ∈ commits)
    (hbound : ∀ c ∈ commits, c.1 ≤ version) (htime : commit.2 ≤ time) :
    ∃ found, IsLastBy commits time found := by
  classical
  let By (v : Version) : Prop := ∃ c ∈ commits, c.2 ≤ time ∧ c.1 = v
  have hspec : By (Nat.findGreatest By version) :=
    Nat.findGreatest_spec (hbound commit h) ⟨commit, h, htime, rfl⟩
  obtain ⟨found, hfound, hby, hversion⟩ := hspec
  refine ⟨found, hfound, hby, ?_⟩
  intro c hc hle
  rw [hversion]
  exact Nat.le_findGreatest (hbound c hc) ⟨c, hc, hle, rfl⟩

variable {times : Set (Version × Int)} {timesFrom : Int → Set (Version × Int)}

theorem Dated.searches (h : Dated history ownTime latest times timesFrom) :
    Searches latest history times timesFrom := by
  cases h with
  | @log log h =>
    refine ⟨h.before_iff, h.after_iff, fun _ => Log.timesFrom_subset, fun c hc => ?_⟩
    have hversion : (log.snapshot log.latest).version = log.latest := by
      unfold Log.snapshot
      cases log.enabled with
      | none => rfl
      | some start =>
        dsimp only
        split_ifs <;> rfl
    rw [hversion]
    exact Log.version_le hc
  | fromCreation before after =>
    refine ⟨fun time found => ?_, fun time found => ?_, fun _ => subset_rfl, fun c hc => hc.2.1⟩
    · exact fromHistory_ok.trans (before time found)
    · exact fromHistory_ok.trans (after time found)

variable (h : Searches latest history times timesFrom)
include h

theorem Searches.start_le_asked
    (hstart : range.start latest history latestTime = .ok start)
    (hcommit : commit ∈ range.searched times timesFrom) (hfrom : range.From commit) :
    start ≤ commit.1 := by
  unfold Range.start at hstart
  cases htime : range.startTimestampMs with
  | none =>
    rw [htime] at hstart
    cases hstart
    cases hversion : range.startVersion with
    | none => exact Nat.zero_le _
    | some version => exact hfrom.1 version hversion
  | some time =>
    rw [htime] at hstart
    obtain ⟨-, found, hfound, rfl⟩ := lookup_of_boundVersion hstart
    exact ((h.after time found).mp hfound).2.2 commit (hcommit.2 time htime)
      (hfrom.2 time htime)

theorem Searches.le_stop
    (hstop : range.stop latest history latestTime = .ok stop)
    (hcommit : commit ∈ times) (hupTo : range.UpTo commit) :
    ∀ last ∈ stop, commit.1 ≤ last := by
  unfold Range.stop at hstop
  cases htime : range.endTimestampMs with
  | none =>
    rw [htime] at hstop
    cases hstop
    exact hupTo.1
  | some time =>
    rw [htime] at hstop
    obtain ⟨version, hversion, rfl⟩ := map_eq_ok_iff.mp hstop
    obtain ⟨-, found, hfound, rfl⟩ := lookup_of_boundVersion hversion
    intro last hlast
    cases hlast
    exact ((h.before time found).mp hfound).2.2 commit hcommit (hupTo.2 time htime)

theorem Searches.from_start (honce : range.Once) (hrises : Rises times)
    (hstart : range.start latest history latestTime = .ok start)
    (hcommit : commit ∈ times) (hle : start ≤ commit.1) : range.From commit := by
  unfold Range.start at hstart
  cases htime : range.startTimestampMs with
  | none =>
    rw [htime] at hstart
    cases hstart
    refine ⟨?_, by simp [htime]⟩
    intro version hversion
    rw [hversion] at hle
    exact hle
  | some time =>
    rw [htime] at hstart
    obtain ⟨-, found, hfound, rfl⟩ := lookup_of_boundVersion hstart
    have hfirst := (h.after time found).mp hfound
    have hnone : range.startVersion = none := honce.1.resolve_right (by simp [htime])
    refine ⟨by simp [hnone], ?_⟩
    intro time' htime'
    cases htime.symm.trans htime'
    exact hfirst.2.1.trans (hrises found (h.within time hfirst.1) commit hcommit hle)

theorem Searches.upTo_stop (honce : range.Once) (hrises : Rises times)
    (hstop : range.stop latest history latestTime = .ok stop)
    (hcommit : commit ∈ times) (hle : ∀ last ∈ stop, commit.1 ≤ last) : range.UpTo commit := by
  unfold Range.stop at hstop
  cases htime : range.endTimestampMs with
  | none =>
    rw [htime] at hstop
    cases hstop
    exact ⟨hle, by simp [htime]⟩
  | some time =>
    rw [htime] at hstop
    obtain ⟨version, hversion, rfl⟩ := map_eq_ok_iff.mp hstop
    obtain ⟨-, found, hfound, rfl⟩ := lookup_of_boundVersion hversion
    have hlast := (h.before time found).mp hfound
    have hnone : range.endVersion = none := honce.2.resolve_right (by simp [htime])
    refine ⟨by simp [hnone], ?_⟩
    intro time' htime'
    cases htime.symm.trans htime'
    exact (hrises commit hcommit found hlast.1 (hle _ rfl)).trans hlast.2.1

theorem Searches.start_found (htimes : ∀ time ∈ range.startTimestampMs, time ≤ latestTime)
    (hcommit : commit ∈ range.searched times timesFrom) (hfrom : range.From commit) :
    ∃ start, range.start latest history latestTime = .ok start := by
  unfold Range.start
  cases htime : range.startTimestampMs with
  | none => exact ⟨_, rfl⟩
  | some time =>
    obtain ⟨found, hfound⟩ := exists_firstFrom (hcommit.2 time htime) (hfrom.2 time htime)
    exact ⟨found.1, boundVersion_of_lookup (htimes time htime)
      ((h.after time found).mpr hfound)⟩

theorem Searches.stop_found (htimes : ∀ time ∈ range.endTimestampMs, time ≤ latestTime)
    (hcommit : commit ∈ times) (hupTo : range.UpTo commit) :
    ∃ stop, range.stop latest history latestTime = .ok stop := by
  unfold Range.stop
  cases htime : range.endTimestampMs with
  | none => exact ⟨_, rfl⟩
  | some time =>
    obtain ⟨found, hfound⟩ := exists_lastBy hcommit h.version_le (hupTo.2 time htime)
    have hversion := boundVersion_of_lookup (htimes time htime)
      ((h.before time found).mpr hfound)
    exact ⟨some found.1, map_eq_ok_iff.mpr ⟨found.1, hversion, rfl⟩⟩

omit h

/-- A range resolves only where its times are not after the latest commit, and to versions between
which every commit stands that it asks for and, where the times rise with the versions, no other;
and it resolves where it asks for some commit. A commit counts as asked for where a search from the
range's start goes over it. -/
theorem range_resolves (hdated : Dated history ownTime latest times timesFrom)
    (hlatest : commitTime latest history ownTime = .ok latestTime) (range : Range) :
    (∀ start stop, resolveRange (.ok latest) history ownTime range = .ok (start, stop) →
      (range.Once ∧ (∀ time ∈ range.startTimestampMs, time ≤ latestTime) ∧
        ∀ time ∈ range.endTimestampMs, time ≤ latestTime) ∧
      (∀ c ∈ range.searched times timesFrom, range.From c → range.UpTo c →
        start ≤ c.1 ∧ ∀ last ∈ stop, c.1 ≤ last) ∧
      (Rises times → ∀ c ∈ times, start ≤ c.1 → (∀ last ∈ stop, c.1 ≤ last) →
        range.From c ∧ range.UpTo c)) ∧
    (range.Once → (∀ time ∈ range.startTimestampMs, time ≤ latestTime) →
      (∀ time ∈ range.endTimestampMs, time ≤ latestTime) →
      (∃ c ∈ range.searched times timesFrom, range.From c ∧ range.UpTo c) → ∃ start stop,
      resolveRange (.ok latest) history ownTime range = .ok (start, stop)) := by
  have h := hdated.searches
  constructor
  · intro start stop hresolved
    obtain ⟨hstart, hstop⟩ := ends_of_resolved hlatest hresolved
    have honce := once_of_resolved hresolved
    refine ⟨⟨honce, start_early hstart, stop_early hstop⟩, ?_, ?_⟩
    · intro c hc hfrom hupTo
      exact ⟨h.start_le_asked hstart hc hfrom, h.le_stop hstop hc.1 hupTo⟩
    · intro hrises c hc hle hlast
      exact ⟨h.from_start honce hrises hstart hc hle, h.upTo_stop honce hrises hstop hc hlast⟩
  · rintro honce hstarts hends ⟨c, hc, hfrom, hupTo⟩
    by_cases htimed : range.startTimestampMs ≠ none ∨ range.endTimestampMs ≠ none
    · obtain ⟨start, hstart⟩ := h.start_found hstarts hc hfrom
      obtain ⟨stop, hstop⟩ := h.stop_found hends hc.1 hupTo
      refine ⟨start, stop, (resolveRange_timed honce htimed hlatest).mpr ⟨hstart, hstop, ?_⟩⟩
      intro last hlast
      exact (h.start_le_asked hstart hc hfrom).trans (h.le_stop hstop hc.1 hupTo last hlast)
    · obtain ⟨hstart, hend⟩ := not_or.mp htimed
      rw [not_not] at hstart hend
      exact ⟨_, _, resolveRange_untimed hstart hend _⟩

end

theorem range_resolves_copied : ∃ start stop, resolveRange (.ok (copiedLog.snapshot 1))
    copiedHistory (fun _ => .ok 50) ⟨none, none, some 40, some 50⟩ = .ok (start, stop) := by
  have hown : ((1, 50) : Version × Int) ∈ copiedLog.inCommits := (mem_copied_inCommits _).mpr rfl
  have htime : commitTime (copiedLog.snapshot copiedLog.latest) copiedHistory (fun _ => .ok 50) =
      .ok 50 := copied_kernel.commitTime_own hown
  refine (range_resolves (.log copied_kernel) htime ⟨none, none, some 40, some 50⟩).2
    (by simp [Range.Once]) (by simp) (by simp) ⟨(1, 50), ⟨Or.inr hown, ?_⟩, ?_, ?_⟩
  · intro time htime
    cases htime
    exact Or.inr hown
  · simp [Range.From]
  · simp [Range.UpTo]

end DeltaSwamp.CommitTime
