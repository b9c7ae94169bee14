import DeltaSwamp.Commit.Error
import DeltaSwamp.Result
import Mathlib.Data.List.Chain
import Mathlib.Data.List.Nodup
import Mathlib.Data.List.TakeWhile

/-!
# Commit times

`commit_time.rs`: the time of a commit and the commit a time names. A commit
is timed by its file's modification time, made monotonic, until in-commit
timestamps are enabled; from there on the kernel's search over the commits'
own timestamps answers.
-/

namespace DeltaSwamp.CommitTime

open Commit Result List

inductive Bound where
  | atOrBefore
  | atOrAfter
  deriving DecidableEq, Repr

inductive HistoryCommitType where
  | recreatable
  | published
  deriving DecidableEq, Repr

/-- Where in-commit timestamps apply. -/
inductive Ict where
  | off
  | fromCreation
  | since (version : Version) (timestamp : Int)
  deriving DecidableEq, Repr

/-- What a lookup reads of a snapshot. -/
structure Snapshot where
  version : Version
  inCommitTimestamps : Bool
  enablementVersion : Option Version
  enablementTimestamp : Option Int

inductive HistoryError where
  /-- The kernel's `LogHistory`: the time names no commit. -/
  | logHistory (shown : Text)
  | other (error : NativeError)
  deriving DecidableEq, Repr

/-- The kernel's history manager and listing, as a lookup calls them. -/
structure History where
  latestVersionAsOf : Int → HistoryCommitType → Except HistoryError (Version × Int)
  firstVersionAfter : Int → HistoryCommitType → Except HistoryError (Version × Int)
  earliestCommit : HistoryCommitType → Except HistoryError Version
  /-- File names from version 0 on, in listing order, with modification times. -/
  listing : Except NativeError (List (Text × Int))

def Snapshot.ict (snapshot : Snapshot) : Except NativeError Ict :=
  if !snapshot.inCommitTimestamps then .ok .off
  else match snapshot.enablementVersion, snapshot.enablementTimestamp with
  | some version, some timestamp => .ok (.since version timestamp)
  | none, none => .ok .fromCreation
  | _, _ =>
    .error (.invalid ("in-commit timestamps are enabled, but only one of " ++
      "delta.inCommitTimestampEnablementVersion and " ++
      "delta.inCommitTimestampEnablementTimestamp is set").toList)

/-- The version a commit file's name spells; a `u64` that overflows is none. -/
def commitVersion (name : Text) : Option Version := do
  let digits ← name.dropSuffix? ".json".toList
  if digits.length = 20 ∧ digits.all Text.isAsciiDigit ∧ Text.toNat digits < 2 ^ 64 then
    some (Text.toNat digits)
  else none

/-- The longest run of consecutive versions that ends with the last commit. -/
def lastRun : List (Version × Int) → List (Version × Int)
  | [] => []
  | [commit] => [commit]
  | commit :: next :: rest =>
    let run := lastRun (next :: rest)
    if run.length = rest.length + 1 ∧ commit.1 + 1 = next.1 then commit :: run else run

/-- `listed_commits`: the loop stops at the first version above the snapshot's. -/
def listedCommits (snapshot : Snapshot) (listing : List (Text × Int)) : List (Version × Int) :=
  let commits := listing.filterMap fun file => (commitVersion file.1).map fun v => (v, file.2)
  lastRun ((commits.takeWhile fun c => c.1 ≤ snapshot.version).insertionSort
    fun a b => a.1 < b.1 ∨ a.1 = b.1 ∧ a.2 ≤ b.2)

def i64Min : Int := -2 ^ 63
def i64Max : Int := 2 ^ 63 - 1

/-- `previous` is the time given to the commit before the list. -/
def monotonizeFrom (previous : Int) : List (Version × Int) → List (Version × Int)
  | [] => []
  | (version, raw) :: rest =>
    let time := max raw (min (previous + 1) i64Max)
    (version, time) :: monotonizeFrom time rest

def monotonize (commits : List (Version × Int)) : List (Version × Int) :=
  monotonizeFrom i64Min commits

def fileCommitTimes (snapshot : Snapshot) (history : History) :
    Except NativeError (List (Version × Int)) := do
  match ← snapshot.ict with
  | .fromCreation => return []
  | .since limit _ =>
    let listing ← history.listing
    return monotonize ((listedCommits snapshot listing).filter fun c => c.1 < limit)
  | .off =>
    let listing ← history.listing
    return monotonize (listedCommits snapshot listing)

def outOfRange (timestamp : Int) (bound : Bound) (detail : Text) : Text :=
  let what := match bound with
    | .atOrBefore => "at or before"
    | .atOrAfter => "at or after"
  ("timestamp out of range: no commit " ++ what ++ " " ++ toString timestamp ++ " ms (").toList ++
    detail ++ ")".toList

def noCommitFile : String := "the log holds no commit file timed by its modification time"

/-- Below `timestamp`'s region of in-commit timestamps: the search over `times`. -/
def lookupFileTimes (ict : Ict) (times : List (Version × Int)) (earliest : Version)
    (timestamp : Int) (bound : Bound) : Except Text (Version × Int) :=
  match bound with
  | .atOrBefore =>
    match (times.takeWhile fun c => c.2 ≤ timestamp).getLast? with
    | some found =>
      if found.1 < earliest then
        .error (outOfRange timestamp bound
          ("it is before the earliest recreatable commit, version " ++ toString earliest ++
            ", which the log's retained checkpoints can rebuild").toList)
      else .ok found
    | none =>
      .error (outOfRange timestamp bound <| match times.head? with
        | some (v, t) =>
          ("it is before the earliest commit in the log, version " ++ toString v ++ " at " ++
            toString t ++ " ms").toList
        | none => noCommitFile.toList)
  | .atOrAfter =>
    match times.find? fun c => timestamp ≤ c.2 with
    | some found => .ok found
    | none =>
      match ict with
      -- The commit that enabled in-commit timestamps is the first after it.
      | .since version enabled => .ok (version, enabled)
      | _ =>
        .error (outOfRange timestamp bound <| match times.getLast? with
          | some (v, t) =>
            ("it is after the latest commit, version " ++ toString v ++ " at " ++ toString t ++
              " ms").toList
          | none => noCommitFile.toList)

def Ict.covers (ict : Ict) (timestamp : Int) : Bool :=
  match ict with
  | .off => false
  | .fromCreation => true
  | .since _ enabled => enabled ≤ timestamp

/-- A search of the kernel's, its `LogHistory` error told apart. -/
def fromHistory {α : Type} (timestamp : Int) (bound : Bound) :
    Except HistoryError α → Except NativeError (Except Text α)
  | .ok found => .ok (.ok found)
  | .error (.logHistory shown) => .ok (.error (outOfRange timestamp bound shown))
  | .error (.other error) => .error error

/-- `lookup`: the outer error is a failure to read the log, the inner one a
timestamp that names no commit. -/
def lookup (snapshot : Snapshot) (history : History) (timestamp : Int) (bound : Bound)
    (commitType : HistoryCommitType) :
    Except NativeError (Except Text (Version × Int)) := do
  let ict ← snapshot.ict
  if ict.covers timestamp then
    fromHistory timestamp bound <| match bound with
      | .atOrBefore => history.latestVersionAsOf timestamp commitType
      | .atOrAfter => history.firstVersionAfter timestamp commitType
  else
    let times ← fileCommitTimes snapshot history
    match commitType with
    | .published =>
      return lookupFileTimes ict times ((times.head?.map Prod.fst).getD 0) timestamp bound
    | .recreatable =>
      match ← fromHistory timestamp bound (history.earliestCommit commitType) with
      | .error e => return .error e
      | .ok earliest => return lookupFileTimes ict times earliest timestamp bound

section
variable {timestamp : Int}

theorem fromHistory_eq_ok_ok {α : Type} {bound : Bound} {found : Except HistoryError α} {a : α}
    (h : fromHistory timestamp bound found = .ok (.ok a)) : found = .ok a := by
  cases found with
  | ok b =>
    cases h
    rfl
  | error e => cases e <;> simp [fromHistory] at h

theorem lookupFileTimes_atOrBefore {ict : Ict} {times : List (Version × Int)} {earliest : Version}
    {found : Version × Int}
    (h : lookupFileTimes ict times earliest timestamp .atOrBefore = .ok found) :
    found ∈ times ∧ found.2 ≤ timestamp := by
  simp only [lookupFileTimes] at h
  cases hlast : (times.takeWhile fun c => c.2 ≤ timestamp).getLast? with
  | none => simp [hlast] at h
  | some last =>
    simp only [hlast] at h
    split_ifs at h
    cases h
    have hmem := mem_of_getLast? hlast
    exact ⟨(List.takeWhile_prefix _).mem hmem, by simpa using mem_takeWhile_imp hmem⟩

/-- The commit found at or before a time is one of that time or earlier: by
its file, or by the kernel's search. -/
theorem lookup_atOrBefore {snapshot : Snapshot} {history : History} {found : Version × Int}
    (h : lookup snapshot history timestamp .atOrBefore .published = .ok (.ok found)) :
    history.latestVersionAsOf timestamp .published = .ok found ∨
      ∃ times, fileCommitTimes snapshot history = .ok times ∧ found ∈ times ∧
        found.2 ≤ timestamp := by
  obtain ⟨ict, hict, h⟩ := bind_eq_ok_iff.mp h
  split_ifs at h with hcovers
  · exact .inl (fromHistory_eq_ok_ok h)
  · obtain ⟨times, htimes, h⟩ := bind_eq_ok_iff.mp h
    exact .inr ⟨times, htimes, lookupFileTimes_atOrBefore (by simpa using h)⟩

end

def Unbroken (commits : List (Version × Int)) : Prop :=
  commits.IsChain fun commit next => commit.1 + 1 = next.1

/-- The commits before a run end with no commit right before it. -/
def Apart (before run : List (Version × Int)) : Prop :=
  ∀ last ∈ before.getLast?, ∀ first ∈ run.head?, last.1 + 1 ≠ first.1

variable {run : List (Version × Int)}

theorem lastRun_unbroken (h : Unbroken run) : lastRun run = run := by
  induction run with
  | nil => rfl
  | cons commit run ih =>
    cases run with
    | nil => rfl
    | cons next rest =>
      rw [Unbroken, isChain_cons_cons] at h
      unfold lastRun
      dsimp only
      rw [ih h.2]
      simp [h.1]

theorem lastRun_append {before : List (Version × Int)} (hrun : Unbroken run) (hne : run ≠ [])
    (happart : Apart before run) : lastRun (before ++ run) = run := by
  induction before with
  | nil => exact lastRun_unbroken hrun
  | cons commit before ih =>
    cases before with
    | nil =>
      cases run with
      | nil => exact absurd rfl hne
      | cons next rest =>
        have hgap : commit.1 + 1 ≠ next.1 := happart commit rfl next rfl
        simp only [cons_append, nil_append]
        unfold lastRun
        dsimp only
        rw [lastRun_unbroken hrun, if_neg (fun h => hgap h.2)]
    | cons next rest =>
      have hlast : lastRun (next :: rest ++ run) = run := by
        apply ih
        intro last hlast first hfirst
        exact happart last (by simpa using hlast) first hfirst
      simp only [cons_append] at hlast ⊢
      unfold lastRun
      dsimp only
      rw [hlast, if_neg]
      intro h
      have hlength := h.1
      simp only [length_append] at hlength
      omega

theorem lastRun_split (commits : List (Version × Int)) :
    ∃ before, commits = before ++ lastRun commits ∧ Unbroken (lastRun commits) ∧
      Apart before (lastRun commits) := by
  induction commits with
  | nil => exact ⟨[], rfl, isChain_nil, by simp [Apart]⟩
  | cons commit commits ih =>
    cases commits with
    | nil => exact ⟨[], rfl, isChain_singleton _, by simp [Apart]⟩
    | cons next rest =>
      obtain ⟨before, hsplit, hrun, happart⟩ := ih
      unfold lastRun
      dsimp only
      split_ifs with hextends
      · have hall : before = [] := by
          have hlength := congrArg List.length hsplit
          rw [length_append, length_cons, hextends.1] at hlength
          exact eq_nil_of_length_eq_zero (by omega)
        rw [hall, nil_append] at hsplit
        rw [← hsplit]
        exact ⟨[], rfl, isChain_cons_cons.mpr ⟨hextends.2, by rw [hsplit]; exact hrun⟩,
          by simp [Apart]⟩
      · refine ⟨commit :: before, by rw [cons_append, ← hsplit], hrun, ?_⟩
        cases before with
        | cons first before => exact fun last hlast => happart last (by simpa using hlast)
        | nil =>
          intro last hlast first hfirst hadjacent
          rw [nil_append] at hsplit
          rw [← hsplit] at hfirst
          cases hfirst
          cases hlast
          exact hextends ⟨by rw [← hsplit]; rfl, hadjacent⟩

def Ascending (commits : List (Version × Int)) : Prop :=
  commits.Pairwise fun commit next => commit.1 < next.1

theorem Ascending.takeWhile_append {before : List (Version × Int)} (h : Ascending (before ++ run))
    {version : Version} (hmem : ∃ commit ∈ run, commit.1 = version) :
    (before ++ run).takeWhile (fun c => c.1 ≤ version) =
      before ++ run.takeWhile fun c => c.1 ≤ version := by
  apply takeWhile_append_of_pos
  intro commit hcommit
  obtain ⟨last, hlast, rfl⟩ := hmem
  have hlt := (pairwise_append.mp h).2.2 commit hcommit last hlast
  simpa using Nat.le_of_lt hlt

variable {commits : List (Version × Int)}

theorem lastRun_takeWhile (h : Ascending commits) {version : Version}
    (hmem : ∃ commit ∈ lastRun commits, commit.1 = version) :
    lastRun (commits.takeWhile fun c => c.1 ≤ version) =
      (lastRun commits).takeWhile fun c => c.1 ≤ version := by
  obtain ⟨before, hsplit, hrun, happart⟩ := lastRun_split commits
  generalize lastRun commits = run at hsplit hrun happart hmem ⊢
  subst hsplit
  rw [h.takeWhile_append hmem]
  obtain ⟨commit, hcommit, hversion⟩ := hmem
  have hascending : Ascending run := (pairwise_append.mp h).2.1
  cases run with
  | nil => cases hcommit
  | cons first rest =>
    have hfirst : first.1 ≤ version := by
      rw [mem_cons] at hcommit
      rw [← hversion]
      cases hcommit with
      | inl heq => exact Nat.le_of_eq (congrArg Prod.fst heq.symm)
      | inr hrest => exact Nat.le_of_lt (rel_of_pairwise_cons hascending hrest)
    have hhead : ((first :: rest).takeWhile fun c => c.1 ≤ version) =
        first :: rest.takeWhile fun c => c.1 ≤ version := by
      rw [takeWhile_cons, if_pos (by simpa using hfirst)]
    apply lastRun_append
    · have hall := takeWhile_append_dropWhile (p := fun c => decide (c.1 ≤ version))
        (l := first :: rest)
      unfold Unbroken at hrun ⊢
      rw [← hall] at hrun
      exact hrun.left_of_append
    · rw [hhead]
      simp
    · rw [hhead]
      intro last hlast first' hfirst'
      cases hfirst'
      exact happart last hlast first rfl

theorem lastRun_mem {commit : Version × Int} (h : commit ∈ lastRun commits) : commit ∈ commits := by
  obtain ⟨before, hsplit, -⟩ := lastRun_split commits
  rw [hsplit]
  exact mem_append_right _ h

theorem lastRun_ascending (h : Ascending commits) : Ascending (lastRun commits) := by
  obtain ⟨before, hsplit, -⟩ := lastRun_split commits
  rw [hsplit] at h
  exact (pairwise_append.mp h).2.1

theorem monotonizeFrom_raw (previous : Int) (commits : List (Version × Int)) :
    List.Forall₂ (fun commit assigned => commit.1 = assigned.1 ∧ commit.2 ≤ assigned.2) commits
      (monotonizeFrom previous commits) := by
  induction commits generalizing previous with
  | nil => exact .nil
  | cons commit rest ih => exact .cons ⟨rfl, le_max_left _ _⟩ (ih _)

/-- Times a machine integer holds. -/
def Bounded (commits : List (Version × Int)) : Prop := ∀ commit ∈ commits, commit.2 ≤ i64Max

theorem monotonizeFrom_above {previous : Int} (hprevious : previous ≤ i64Max)
    (hbounded : Bounded commits) {commit : Version × Int}
    (hmem : commit ∈ monotonizeFrom previous commits) :
    commit.2 ≤ i64Max ∧ (previous < commit.2 ∨ previous = i64Max ∧ commit.2 = i64Max) := by
  induction commits generalizing previous with
  | nil => cases hmem
  | cons first rest ih =>
    obtain ⟨version, raw⟩ := first
    obtain ⟨hraw, hrest⟩ := forall_mem_cons.mp hbounded
    unfold monotonizeFrom at hmem
    dsimp only at hmem hraw
    rw [mem_cons] at hmem
    cases hmem with
    | inl heq =>
      rw [heq]
      dsimp only
      omega
    | inr hmem =>
      have hlater := ih (by omega) hrest hmem
      omega

/-- The order of two commits' assigned times. -/
def Later (commit next : Version × Int) : Prop :=
  commit.2 < next.2 ∨ commit.2 = i64Max ∧ next.2 = i64Max

theorem monotonizeFrom_later {previous : Int} (hprevious : previous ≤ i64Max)
    (hbounded : Bounded commits) : (monotonizeFrom previous commits).Pairwise Later := by
  induction commits generalizing previous with
  | nil => exact .nil
  | cons first rest ih =>
    obtain ⟨version, raw⟩ := first
    obtain ⟨hraw, hrest⟩ := forall_mem_cons.mp hbounded
    dsimp only at hraw
    unfold monotonizeFrom
    dsimp only
    refine .cons ?_ (ih (by omega) hrest)
    intro commit hmem
    exact (monotonizeFrom_above (by omega) hrest hmem).2

theorem monotonizeFrom_takeWhile (previous : Int) (commits : List (Version × Int))
    (keep : Version → Bool) :
    monotonizeFrom previous (commits.takeWhile fun c => keep c.1) =
      (monotonizeFrom previous commits).takeWhile fun c => keep c.1 := by
  induction commits generalizing previous with
  | nil => rfl
  | cons commit rest ih =>
    obtain ⟨version, raw⟩ := commit
    cases hkeep : keep version with
    | false => simp [monotonizeFrom, hkeep]
    | true => simp [monotonizeFrom, hkeep, ih]

theorem monotonizeFrom_versions (previous : Int) (commits : List (Version × Int)) :
    (monotonizeFrom previous commits).map Prod.fst = commits.map Prod.fst := by
  induction commits generalizing previous with
  | nil => rfl
  | cons commit rest ih => simp [monotonizeFrom, ih]

theorem ascending_versions : Ascending commits ↔ (commits.map Prod.fst).Pairwise (· < ·) := by
  unfold Ascending
  rw [pairwise_map]

theorem monotonize_ascending (h : Ascending commits) : Ascending (monotonize commits) := by
  rw [ascending_versions] at h ⊢
  unfold monotonize
  rw [monotonizeFrom_versions]
  exact h

theorem monotonize_later (h : Bounded commits) : (monotonize commits).Pairwise Later :=
  monotonizeFrom_later (by decide) h

theorem Ascending.eq_of_version (h : Ascending commits) {first last : Version × Int}
    (hfirst : first ∈ commits) (hlast : last ∈ commits) (hsame : first.1 = last.1) :
    first = last := by
  rw [ascending_versions] at h
  have hnodup : (commits.map Prod.fst).Nodup := h.imp fun hlt => Nat.ne_of_lt hlt
  exact inj_on_of_nodup_map hnodup hfirst hlast hsame

end DeltaSwamp.CommitTime
