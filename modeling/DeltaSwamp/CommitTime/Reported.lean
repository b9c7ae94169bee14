import DeltaSwamp.CommitTime
import Mathlib.Data.Set.Basic

/-!
# Times as they are reported and resolved

`commit_time` of the snapshot at any version of a log, and `lookup` of any time
in the latest one.

The commit a time names is the last one by it or the first one from it, over
the times Delta assigns, and the time of a commit names that commit.
-/

namespace DeltaSwamp.CommitTime

open Commit Result List

/-- The greatest version with a time not after `time`. -/
def IsLastBy (commits : Set (Version × Int)) (time : Int) (found : Version × Int) : Prop :=
  found ∈ commits ∧ found.2 ≤ time ∧ ∀ commit ∈ commits, commit.2 ≤ time → commit.1 ≤ found.1

/-- The least version with a time not before `time`. -/
def IsFirstFrom (commits : Set (Version × Int)) (time : Int) (found : Version × Int) : Prop :=
  found ∈ commits ∧ time ≤ found.2 ∧ ∀ commit ∈ commits, time ≤ commit.2 → found.1 ≤ commit.1

theorem IsLastBy.mono {commits : Set (Version × Int)} {first last : Int}
    {found found' : Version × Int} (hle : first ≤ last) (h : IsLastBy commits first found)
    (h' : IsLastBy commits last found') : found.1 ≤ found'.1 :=
  h'.2.2 found h.1 (Int.le_trans h.2.1 hle)

theorem IsFirstFrom.mono {commits : Set (Version × Int)} {first last : Int}
    {found found' : Version × Int} (hle : first ≤ last) (h : IsFirstFrom commits first found)
    (h' : IsFirstFrom commits last found') : found.1 ≤ found'.1 :=
  h.2.2 found' h'.1 (Int.le_trans hle h'.2.1)

section
variable {times : List (Version × Int)}

def Rising (times : List (Version × Int)) : Prop :=
  times.Pairwise fun commit next => commit.2 ≤ next.2

theorem rising_of_later (h : times.Pairwise Later) : Rising times := by
  refine h.imp ?_
  intro commit next hlater
  unfold Later at hlater
  omega

variable {time : Int}

theorem mem_takeWhile_rising (h : Rising times) {commit : Version × Int} (hmem : commit ∈ times)
    (hle : commit.2 ≤ time) : commit ∈ times.takeWhile fun c => c.2 ≤ time := by
  induction times with
  | nil => cases hmem
  | cons first rest ih =>
    obtain ⟨hfirst, hrest⟩ := pairwise_cons.mp h
    rw [mem_cons] at hmem
    have hhead : first.2 ≤ time := by
      cases hmem with
      | inl heq => exact heq ▸ hle
      | inr hmem => exact Int.le_trans (hfirst commit hmem) hle
    rw [takeWhile_cons, if_pos (by simpa using hhead), mem_cons]
    exact hmem.imp_right (ih hrest)

theorem getLast?_ascending {commits : List (Version × Int)} (h : Ascending commits)
    {last commit : Version × Int} (hlast : commits.getLast? = some last) (hmem : commit ∈ commits) :
    commit.1 ≤ last.1 := by
  rw [List.getLast?_eq_some_iff] at hlast
  obtain ⟨before, rfl⟩ := hlast
  rw [mem_append, mem_singleton] at hmem
  cases hmem with
  | inl hbefore =>
    exact Nat.le_of_lt ((pairwise_append.mp h).2.2 commit hbefore last (by simp))
  | inr heq => exact Nat.le_of_eq (congrArg Prod.fst heq)

variable {found : Version × Int}

theorem IsLastBy.unique (h : Ascending times) {found' : Version × Int}
    (hfound : IsLastBy {c | c ∈ times} time found)
    (hfound' : IsLastBy {c | c ∈ times} time found') :
    found = found' :=
  h.eq_of_version hfound.1 hfound'.1 (Nat.le_antisymm (hfound'.2.2 _ hfound.1 hfound.2.1)
    (hfound.2.2 _ hfound'.1 hfound'.2.1))

theorem IsFirstFrom.unique (h : Ascending times) {found' : Version × Int}
    (hfound : IsFirstFrom {c | c ∈ times} time found)
    (hfound' : IsFirstFrom {c | c ∈ times} time found') : found = found' :=
  h.eq_of_version hfound.1 hfound'.1 (Nat.le_antisymm (hfound.2.2 _ hfound'.1 hfound'.2.1)
    (hfound'.2.2 _ hfound.1 hfound.2.1))

theorem lastBy_of_getLast? (h : Ascending times) (hrising : Rising times)
    (hlast : (times.takeWhile fun c => c.2 ≤ time).getLast? = some found) :
    IsLastBy {c | c ∈ times} time found := by
  have hmem := mem_of_getLast? hlast
  refine ⟨takeWhile_subset _ hmem, by simpa using mem_takeWhile_imp hmem, ?_⟩
  intro commit hcommit hle
  have hascending : Ascending (times.takeWhile fun c => c.2 ≤ time) :=
    h.sublist (takeWhile_sublist _)
  exact getLast?_ascending hascending hlast (mem_takeWhile_rising hrising hcommit hle)

theorem getLast?_iff (h : Ascending times) (hrising : Rising times) :
    (times.takeWhile fun c => c.2 ≤ time).getLast? = some found ↔
      IsLastBy {c | c ∈ times} time found := by
  refine ⟨lastBy_of_getLast? h hrising, ?_⟩
  intro hfound
  have hmem := mem_takeWhile_rising hrising hfound.1 hfound.2.1
  cases hlast : (times.takeWhile fun c => c.2 ≤ time).getLast? with
  | none =>
    rw [List.getLast?_eq_none_iff] at hlast
    rw [hlast] at hmem
    cases hmem
  | some last => rw [(lastBy_of_getLast? h hrising hlast).unique h hfound]

theorem firstFrom_of_find? (h : Ascending times)
    (hfind : (times.find? fun c => time ≤ c.2) = some found) :
    IsFirstFrom {c | c ∈ times} time found := by
  refine ⟨mem_of_find?_eq_some hfind, by simpa using List.find?_some hfind, ?_⟩
  intro commit hcommit hle
  obtain ⟨before, after, hsplit, hbefore⟩ := (List.find?_eq_some_iff_append.mp hfind).2
  rw [Set.mem_ofPred_eq, hsplit, mem_append, mem_cons] at hcommit
  rcases hcommit with hmem | rfl | hmem
  · have := hbefore commit hmem
    simp at this
    omega
  · exact Nat.le_refl _
  · rw [hsplit] at h
    exact Nat.le_of_lt (rel_of_pairwise_cons (pairwise_append.mp h).2.1 hmem)

theorem find?_iff (h : Ascending times) :
    (times.find? fun c => time ≤ c.2) = some found ↔ IsFirstFrom {c | c ∈ times} time found := by
  refine ⟨firstFrom_of_find? h, ?_⟩
  intro hfound
  cases hfind : times.find? fun c => time ≤ c.2 with
  | none =>
    have hnone := List.find?_eq_none.mp hfind found hfound.1
    exact absurd (by simpa using hfound.2.1) hnone
  | some first => rw [(firstFrom_of_find? h hfind).unique h hfound]

end

/-- `commit_time`, with the kernel's `get_timestamp` of a version. -/
def commitTime (snapshot : Snapshot) (history : History)
    (ownTime : Version → Except NativeError Int) : Except NativeError Int := do
  let ict ← snapshot.ict
  if ict ≠ .off then ownTime snapshot.version
  else
    let times ← fileCommitTimes snapshot history
    match times.getLast? with
    | some (version, time) =>
      if version = snapshot.version then .ok time else ownTime snapshot.version
    | none => ownTime snapshot.version

/-- A log: its latest version, its commit files with their modification times, and the version and
in-commit timestamp of the commit that enabled these, if one did. -/
structure Log where
  latest : Version
  files : List (Text × Int)
  enabled : Option (Version × Int)
  inCommit : Version → Int

namespace Log
variable (log : Log)

def ict : Ict :=
  match log.enabled with
  | none => .off
  | some (version, time) => .since version time

def snapshot (version : Version) : Snapshot :=
  match log.enabled with
  | none => ⟨version, false, none, none⟩
  | some (enabled, time) =>
    if enabled ≤ version then ⟨version, true, some enabled, some time⟩
    else ⟨version, false, none, none⟩

def commits : List (Version × Int) :=
  log.files.filterMap fun file => (commitVersion file.1).map fun v => (v, file.2)

/-- The unbroken run that ends at the latest commit. -/
def run : List (Version × Int) := lastRun (log.commits.takeWhile fun c => c.1 ≤ log.latest)

/-- The commits of the run timed by their files. -/
def fileTimed : List (Version × Int) :=
  match log.enabled with
  | none => log.run
  | some (enabled, _) => log.run.filter fun c => c.1 < enabled

def inCommits : Set (Version × Int) :=
  {c | ∃ enabled time, log.enabled = some (enabled, time) ∧ enabled ≤ c.1 ∧ c.1 ≤ log.latest ∧
    c.2 = log.inCommit c.1}

/-- Every commit with the time Delta assigns it. -/
def times : Set (Version × Int) := {c | c ∈ monotonize log.fileTimed} ∪ log.inCommits

/-- The commits a search from a time goes over. -/
def timesFrom (time : Int) : Set (Version × Int) :=
  if log.ict.covers time then log.inCommits else log.times

end Log

/-- The kernel's part: it lists files by name, so in the order of their versions; in-commit
timestamps increase, and its search over them is right. -/
structure Kernel (log : Log) (history : History) (ownTime : Version → Except NativeError Int) :
    Prop where
  listing : history.listing = .ok log.files
  ascending : Ascending log.commits
  bounded : Bounded log.commits
  enabled_le : ∀ enabled time, log.enabled = some (enabled, time) →
    enabled ≤ log.latest ∧ log.inCommit enabled = time
  increasing : ∀ enabled time, log.enabled = some (enabled, time) →
    ∀ version next, enabled ≤ version → version < next → next ≤ log.latest →
      log.inCommit version < log.inCommit next
  own : ∀ enabled time, log.enabled = some (enabled, time) →
    ∀ version, enabled ≤ version → version ≤ log.latest →
      ownTime version = .ok (log.inCommit version)
  before : ∀ enabled start, log.enabled = some (enabled, start) → ∀ time, start ≤ time →
    ∀ found, history.latestVersionAsOf time .published = .ok found ↔
      IsLastBy log.inCommits time found
  after : ∀ enabled start, log.enabled = some (enabled, start) → ∀ time, start ≤ time →
    ∀ found, history.firstVersionAfter time .published = .ok found ↔
      IsFirstFrom log.inCommits time found
  before_recreatable : ∀ time found, history.latestVersionAsOf time .recreatable = .ok found →
    IsLastBy log.inCommits time found
  after_recreatable : ∀ time found, history.firstVersionAfter time .recreatable = .ok found →
    IsFirstFrom log.inCommits time found

theorem filter_ascending {commits : List (Version × Int)} (h : Ascending commits)
    (version : Version) : (commits.filter fun c => c.1 < version) =
      commits.takeWhile fun c => c.1 < version := by
  induction commits with
  | nil => rfl
  | cons commit rest ih =>
    obtain ⟨hfirst, hrest⟩ := pairwise_cons.mp h
    by_cases hlt : commit.1 < version
    · simp [hlt, ih hrest]
    · have hnone : (rest.filter fun c => c.1 < version) = [] := by
        rw [filter_eq_nil_iff]
        intro next hnext
        have hnextLt : commit.1 < next.1 := hfirst next hnext
        simp only [decide_eq_true_eq, not_lt]
        exact Nat.le_trans (Nat.le_of_not_lt hlt) (Nat.le_of_lt hnextLt)
      simp [hlt, hnone]

theorem Log.fileTimed_run {log : Log} {commit : Version × Int} (hmem : commit ∈ log.fileTimed) :
    commit ∈ log.run := by
  unfold Log.fileTimed at hmem
  cases henabled : log.enabled with
  | none => rw [henabled] at hmem; exact hmem
  | some start => rw [henabled] at hmem; exact mem_of_mem_filter hmem

theorem Log.covers_iff {log : Log} {time : Int} : log.ict.covers time = true ↔
    ∃ enabled start, log.enabled = some (enabled, start) ∧ start ≤ time := by
  unfold Log.ict
  cases log.enabled with
  | none => simp [Ict.covers]
  | some start =>
    obtain ⟨enabled, start⟩ := start
    simp [Ict.covers]

theorem Log.file_before {log : Log} {enabled : Version} {start : Int}
    (henabled : log.enabled = some (enabled, start)) {commit : Version × Int}
    (hmem : commit ∈ monotonize log.fileTimed) : commit.1 < enabled := by
  have hversion : commit.1 ∈ log.fileTimed.map Prod.fst := by
    rw [← monotonizeFrom_versions i64Min]
    exact mem_map_of_mem hmem
  obtain ⟨file, hfile, hsame⟩ := mem_map.mp hversion
  unfold Log.fileTimed at hfile
  rw [henabled] at hfile
  rw [← hsame]
  simpa using (mem_filter.mp hfile).2

section
variable {log : Log} {history : History} {ownTime : Version → Except NativeError Int}
  (h : Kernel log history ownTime)
include h

theorem Kernel.sorted (version : Version) :
    ((log.commits.takeWhile fun c => c.1 ≤ version).insertionSort
      fun a b => a.1 < b.1 ∨ a.1 = b.1 ∧ a.2 ≤ b.2) =
        log.commits.takeWhile fun c => c.1 ≤ version := by
  have hascending : Ascending (log.commits.takeWhile fun c => c.1 ≤ version) :=
    h.ascending.sublist (takeWhile_sublist _)
  apply List.Pairwise.insertionSort_eq
  exact hascending.imp fun hlt => Or.inl hlt

theorem Kernel.listed {snapshot : Snapshot} :
    listedCommits snapshot log.files =
      lastRun (log.commits.takeWhile fun c => c.1 ≤ snapshot.version) := by
  unfold listedCommits
  dsimp only
  exact congrArg lastRun (h.sorted snapshot.version)

theorem Kernel.run_ascending : Ascending log.run :=
  lastRun_ascending (h.ascending.sublist (takeWhile_sublist _))

theorem Kernel.run_bounded : Bounded log.run := by
  intro commit hmem
  exact h.bounded commit (takeWhile_subset _ (lastRun_mem hmem))

theorem Kernel.fileTimed_ascending : Ascending log.fileTimed := by
  unfold Log.fileTimed
  cases log.enabled with
  | none => exact h.run_ascending
  | some start => exact h.run_ascending.sublist filter_sublist

theorem Kernel.assigned_ascending : Ascending (monotonize log.fileTimed) :=
  monotonize_ascending h.fileTimed_ascending

theorem Kernel.assigned_later : (monotonize log.fileTimed).Pairwise Later :=
  monotonize_later fun commit hmem => h.run_bounded commit (log.fileTimed_run hmem)

theorem Kernel.assigned_rising : Rising (monotonize log.fileTimed) :=
  rising_of_later h.assigned_later

theorem Kernel.ict_latest : (log.snapshot log.latest).ict = .ok log.ict := by
  unfold Log.snapshot Log.ict Snapshot.ict
  cases henabled : log.enabled with
  | none => rfl
  | some start =>
    obtain ⟨enabled, time⟩ := start
    simp [(h.enabled_le enabled time henabled).1]

theorem Kernel.times_latest :
    fileCommitTimes (log.snapshot log.latest) history = .ok (monotonize log.fileTimed) := by
  have hversion : (log.snapshot log.latest).version = log.latest := by
    unfold Log.snapshot
    split
    · rfl
    · split <;> rfl
  unfold fileCommitTimes
  rw [h.ict_latest, ok_bind]
  unfold Log.ict Log.fileTimed Log.run
  cases log.enabled with
  | none =>
    dsimp only
    rw [h.listing, ok_bind, h.listed, hversion]
    rfl
  | some start =>
    dsimp only
    rw [h.listing, ok_bind, h.listed, hversion]
    rfl

theorem Kernel.start_mem {enabled : Version} {start : Int}
    (henabled : log.enabled = some (enabled, start)) : (enabled, start) ∈ log.inCommits := by
  obtain ⟨hle, hstart⟩ := h.enabled_le enabled start henabled
  exact ⟨enabled, start, henabled, Nat.le_refl _, hle, hstart.symm⟩

theorem Kernel.start_le {enabled : Version} {start : Int}
    (henabled : log.enabled = some (enabled, start)) {commit : Version × Int}
    (hmem : commit ∈ log.inCommits) : enabled ≤ commit.1 ∧ start ≤ commit.2 := by
  obtain ⟨enabled', start', henabled', hle, hlast, htime⟩ := hmem
  rw [henabled] at henabled'
  cases henabled'
  refine ⟨hle, ?_⟩
  rw [htime, ← (h.enabled_le enabled start henabled).2]
  by_cases hsame : enabled = commit.1
  · rw [hsame]
  · exact Int.le_of_lt (h.increasing enabled start henabled enabled commit.1 (Nat.le_refl _)
      (Nat.lt_of_le_of_ne hle hsame) hlast)

variable {time : Int} {found : Version × Int}

theorem Kernel.lastBy_covered (hcovers : log.ict.covers time = true) :
    IsLastBy log.times time found ↔ IsLastBy log.inCommits time found := by
  obtain ⟨enabled, start, henabled, hle⟩ := log.covers_iff.mp hcovers
  constructor
  · rintro ⟨hmem, hby, hlast⟩
    have hstart := hlast _ (Or.inr (h.start_mem henabled)) hle
    refine ⟨?_, hby, fun commit hcommit => hlast commit (Or.inr hcommit)⟩
    cases hmem with
    | inl hfile => exact absurd (log.file_before henabled hfile) (Nat.not_lt.mpr hstart)
    | inr hown => exact hown
  · rintro ⟨hmem, hby, hlast⟩
    refine ⟨Or.inr hmem, hby, ?_⟩
    intro commit hcommit hcommitBy
    cases hcommit with
    | inl hfile =>
      exact Nat.le_trans (Nat.le_of_lt (log.file_before henabled hfile))
        (h.start_le henabled hmem).1
    | inr hown => exact hlast commit hown hcommitBy

theorem Kernel.lastBy_files (hcovers : log.ict.covers time = false) :
    IsLastBy log.times time found ↔ IsLastBy {c | c ∈ monotonize log.fileTimed} time found := by
  have hlater : ∀ commit ∈ log.inCommits, ¬ commit.2 ≤ time := by
    intro commit hcommit hle
    obtain ⟨enabled, start, henabled, -⟩ := id hcommit
    have hstart := (h.start_le henabled hcommit).2
    rw [log.covers_iff.mpr ⟨enabled, start, henabled, by omega⟩] at hcovers
    cases hcovers
  constructor
  · rintro ⟨hmem, hby, hlast⟩
    exact ⟨hmem.resolve_right fun hown => hlater _ hown hby, hby,
      fun commit hcommit => hlast commit (Or.inl hcommit)⟩
  · rintro ⟨hmem, hby, hlast⟩
    refine ⟨Or.inl hmem, hby, ?_⟩
    intro commit hcommit hcommitBy
    cases hcommit with
    | inl hfile => exact hlast commit hfile hcommitBy
    | inr hown => exact absurd hcommitBy (hlater commit hown)

/-- Before in-commit timestamps: a file's commit, or the first after all of them. -/
theorem Kernel.firstFrom_files (hcovers : log.ict.covers time = false) :
    IsFirstFrom (log.timesFrom time) time found ↔
      IsFirstFrom {c | c ∈ monotonize log.fileTimed} time found ∨
        (∀ commit ∈ monotonize log.fileTimed, commit.2 < time) ∧ log.enabled = some found := by
  unfold Log.timesFrom
  rw [hcovers, if_neg (by simp)]
  have hstart : ∀ enabled start, log.enabled = some (enabled, start) → time ≤ start := by
    intro enabled start henabled
    by_contra hlt
    rw [log.covers_iff.mpr ⟨enabled, start, henabled, by omega⟩] at hcovers
    cases hcovers
  constructor
  · rintro ⟨hmem, hfrom, hfirst⟩
    cases hmem with
    | inl hfile =>
      exact Or.inl ⟨hfile, hfrom, fun commit hcommit => hfirst commit (Or.inl hcommit)⟩
    | inr hown =>
      right
      obtain ⟨enabled, start, henabled, hle, hlast, htime⟩ := id hown
      constructor
      · intro commit hcommit
        by_contra hge
        have hbefore := hfirst commit (Or.inl hcommit) (by omega)
        exact absurd (log.file_before henabled hcommit) (Nat.not_lt.mpr (Nat.le_trans hle hbefore))
      · have hleast := hfirst _ (Or.inr (h.start_mem henabled)) (hstart enabled start henabled)
        have hversion : found.1 = enabled := Nat.le_antisymm hleast hle
        rw [henabled, ← (h.enabled_le enabled start henabled).2, ← hversion, ← htime]
  · rintro (⟨hmem, hfrom, hfirst⟩ | ⟨hnone, henabled⟩)
    · refine ⟨Or.inl hmem, hfrom, ?_⟩
      intro commit hcommit hcommitFrom
      cases hcommit with
      | inl hfile => exact hfirst commit hfile hcommitFrom
      | inr hown =>
        obtain ⟨enabled, start, henabled, -⟩ := id hown
        exact Nat.le_trans (Nat.le_of_lt (log.file_before henabled hmem))
          (h.start_le henabled hown).1
    · obtain ⟨enabled, start⟩ := found
      refine ⟨Or.inr (h.start_mem henabled), hstart enabled start henabled, ?_⟩
      intro commit hcommit hcommitFrom
      cases hcommit with
      | inl hfile => exact absurd (hnone commit hfile) (Int.not_lt.mpr hcommitFrom)
      | inr hown => exact (h.start_le henabled hown).1

end
end DeltaSwamp.CommitTime
