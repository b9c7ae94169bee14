import DeltaSwamp.CommitTime.Reported

/-!
# Every lookup of a log

What `lookup` answers at the latest version, and that the time reported for a
version names it.
-/

namespace DeltaSwamp.CommitTime

open Commit Result List

theorem fromHistory_ok {α : Type} {timestamp : Int} {bound : Bound}
    {found : Except HistoryError α} {a : α} :
    fromHistory timestamp bound found = .ok (.ok a) ↔ found = .ok a := by
  constructor
  · exact fromHistory_eq_ok_ok
  · rintro rfl
    rfl

variable {times : List (Version × Int)} {found : Version × Int}

theorem lookupFileTimes_before {ict : Ict} {earliest : Version} {time : Int} :
    lookupFileTimes ict times earliest time .atOrBefore = .ok found ↔
      (times.takeWhile fun c => c.2 ≤ time).getLast? = some found ∧ earliest ≤ found.1 := by
  simp only [lookupFileTimes]
  cases (times.takeWhile fun c => c.2 ≤ time).getLast? with
  | none => simp
  | some last =>
    dsimp only
    split_ifs with hbefore
    · constructor
      · intro h
        cases h
      · rintro ⟨h, hle⟩
        cases h
        exact absurd hbefore (Nat.not_lt.mpr hle)
    · constructor
      · intro h
        cases h
        exact ⟨rfl, Nat.le_of_not_lt hbefore⟩
      · rintro ⟨h, -⟩
        cases h
        rfl

theorem lookupFileTimes_after {log : Log} {earliest : Version} {time : Int} :
    lookupFileTimes log.ict times earliest time .atOrAfter = .ok found ↔
      (times.find? fun c => time ≤ c.2) = some found ∨
        (∀ commit ∈ times, commit.2 < time) ∧ log.enabled = some found := by
  have hnone : (times.find? fun c => time ≤ c.2) = none ↔ ∀ commit ∈ times, commit.2 < time := by
    simp [List.find?_eq_none]
  simp only [lookupFileTimes]
  cases hfind : times.find? fun c => time ≤ c.2 with
  | some first =>
    have hsome : ¬ ∀ commit ∈ times, commit.2 < time := by
      rw [← hnone, hfind]
      simp
    dsimp only
    rw [Except.ok.injEq, Option.some.injEq]
    exact ⟨Or.inl, fun hfound => hfound.resolve_right fun hall => hsome hall.1⟩
  | none =>
    have hall := hnone.mp hfind
    unfold Log.ict
    cases log.enabled with
    | none => simp
    | some start => simpa using fun _ => hall

theorem head_le (hascending : Ascending times) {commit : Version × Int} (hmem : commit ∈ times) :
    ((times.head?.map Prod.fst).getD 0) ≤ commit.1 := by
  cases times with
  | nil => cases hmem
  | cons first rest =>
    rw [mem_cons] at hmem
    cases hmem with
    | inl heq => exact Nat.le_of_eq (congrArg Prod.fst heq.symm)
    | inr hrest => exact Nat.le_of_lt (rel_of_pairwise_cons hascending hrest)

/-- A later time names no earlier commit from it, across the start of the in-commit timestamps
too. -/
theorem Log.firstFrom_mono {log : Log} {first last : Int} {found' : Version × Int}
    (hle : first ≤ last) (hfound : IsFirstFrom (log.timesFrom first) first found)
    (hfound' : IsFirstFrom (log.timesFrom last) last found') : found.1 ≤ found'.1 := by
  unfold Log.timesFrom at hfound hfound'
  cases hfirst : log.ict.covers first with
  | true =>
    obtain ⟨enabled, start, henabled, hstart⟩ := log.covers_iff.mp hfirst
    have hlast : log.ict.covers last = true :=
      log.covers_iff.mpr ⟨enabled, start, henabled, Int.le_trans hstart hle⟩
    rw [if_pos hfirst] at hfound
    rw [if_pos hlast] at hfound'
    exact hfound.mono hle hfound'
  | false =>
    rw [hfirst, if_neg (by simp)] at hfound
    cases hlast : log.ict.covers last with
    | false =>
      rw [hlast, if_neg (by simp)] at hfound'
      exact hfound.mono hle hfound'
    | true =>
      rw [if_pos hlast] at hfound'
      exact hfound.2.2 found' (Or.inr hfound'.1) (Int.le_trans hle hfound'.2.1)

section
variable {log : Log} {history : History} {ownTime : Version → Except NativeError Int}
  (h : Kernel log history ownTime)
include h

theorem Kernel.lookup_covered {time : Int} (hcovers : log.ict.covers time = true) (bound : Bound)
    (commitType : HistoryCommitType) {found : Version × Int} :
    lookup (log.snapshot log.latest) history time bound commitType = .ok (.ok found) ↔
      (match bound with
        | .atOrBefore => history.latestVersionAsOf time commitType
        | .atOrAfter => history.firstVersionAfter time commitType) = .ok found := by
  unfold lookup
  rw [h.ict_latest, ok_bind, if_pos hcovers]
  exact fromHistory_ok

variable {time : Int} {found : Version × Int}

theorem Kernel.lookup_published (hcovers : log.ict.covers time = false) (bound : Bound) :
    lookup (log.snapshot log.latest) history time bound .published = .ok (.ok found) ↔
      lookupFileTimes log.ict (monotonize log.fileTimed)
        (((monotonize log.fileTimed).head?.map Prod.fst).getD 0) time bound = .ok found := by
  unfold lookup
  rw [h.ict_latest, ok_bind, hcovers, if_neg (by simp), h.times_latest, ok_bind]
  simp

theorem Kernel.lookup_recreatable (hcovers : log.ict.covers time = false) (bound : Bound) :
    lookup (log.snapshot log.latest) history time bound .recreatable = .ok (.ok found) ↔
      ∃ earliest, history.earliestCommit .recreatable = .ok earliest ∧
        lookupFileTimes log.ict (monotonize log.fileTimed) earliest time bound = .ok found := by
  unfold lookup
  rw [h.ict_latest, ok_bind, hcovers, if_neg (by simp), h.times_latest, ok_bind]
  dsimp only
  cases hearliest : history.earliestCommit .recreatable with
  | ok earliest =>
    have hfrom : fromHistory time bound (.ok earliest : Except HistoryError Version) =
        .ok (.ok earliest) := rfl
    rw [hfrom, ok_bind]
    simp
  | error error =>
    cases error with
    | logHistory shown =>
      have hfrom : fromHistory time bound
          (.error (.logHistory shown) : Except HistoryError Version) =
          .ok (.error (outOfRange time bound shown)) := rfl
      rw [hfrom, ok_bind]
      simp
    | other error =>
      have hfrom : fromHistory time bound (.error (.other error) : Except HistoryError Version) =
          .error error := rfl
      rw [hfrom]
      constructor
      · intro hlookup
        cases hlookup
      · rintro ⟨earliest, hok, -⟩
        cases hok

theorem Kernel.searched_before (hcovers : log.ict.covers time = false) {earliest : Version} :
    lookupFileTimes log.ict (monotonize log.fileTimed) earliest time .atOrBefore = .ok found ↔
      IsLastBy log.times time found ∧ earliest ≤ found.1 := by
  rw [lookupFileTimes_before, getLast?_iff h.assigned_ascending h.assigned_rising,
    h.lastBy_files hcovers]

theorem Kernel.searched_after (hcovers : log.ict.covers time = false) {earliest : Version} :
    lookupFileTimes log.ict (monotonize log.fileTimed) earliest time .atOrAfter = .ok found ↔
      IsFirstFrom (log.timesFrom time) time found := by
  rw [lookupFileTimes_after, find?_iff h.assigned_ascending, h.firstFrom_files hcovers]

/-- `AtOrBefore` gives the last commit by the time, and nothing else. -/
theorem Kernel.before_iff (time : Int) (found : Version × Int) :
    lookup (log.snapshot log.latest) history time .atOrBefore .published = .ok (.ok found) ↔
      IsLastBy log.times time found := by
  cases hcovers : log.ict.covers time with
  | true =>
    obtain ⟨enabled, start, henabled, hle⟩ := log.covers_iff.mp hcovers
    rw [h.lookup_covered hcovers, h.lastBy_covered hcovers]
    exact h.before enabled start henabled time hle found
  | false =>
    rw [h.lookup_published hcovers, h.searched_before hcovers, and_iff_left_iff_imp]
    intro hlast
    exact head_le h.assigned_ascending ((h.lastBy_files hcovers).mp hlast).1

/-- `AtOrAfter` gives the first commit from the time, among those the time is looked up in. -/
theorem Kernel.after_iff (time : Int) (found : Version × Int) :
    lookup (log.snapshot log.latest) history time .atOrAfter .published = .ok (.ok found) ↔
      IsFirstFrom (log.timesFrom time) time found := by
  cases hcovers : log.ict.covers time with
  | true =>
    obtain ⟨enabled, start, henabled, hle⟩ := log.covers_iff.mp hcovers
    rw [h.lookup_covered hcovers]
    unfold Log.timesFrom
    rw [if_pos hcovers]
    exact h.after enabled start henabled time hle found
  | false => rw [h.lookup_published hcovers, h.searched_after hcovers]

theorem Kernel.before_sound {commitType : HistoryCommitType}
    (hfound : lookup (log.snapshot log.latest) history time .atOrBefore commitType =
      .ok (.ok found)) : IsLastBy log.times time found := by
  cases commitType with
  | published => exact (h.before_iff time found).mp hfound
  | recreatable =>
    cases hcovers : log.ict.covers time with
    | true =>
      rw [h.lookup_covered hcovers] at hfound
      exact (h.lastBy_covered hcovers).mpr (h.before_recreatable time found hfound)
    | false =>
      obtain ⟨earliest, -, hsearch⟩ := (h.lookup_recreatable hcovers _).mp hfound
      exact ((h.searched_before hcovers).mp hsearch).1

theorem Kernel.after_sound {commitType : HistoryCommitType}
    (hfound : lookup (log.snapshot log.latest) history time .atOrAfter commitType =
      .ok (.ok found)) : IsFirstFrom (log.timesFrom time) time found := by
  cases commitType with
  | published => exact (h.after_iff time found).mp hfound
  | recreatable =>
    cases hcovers : log.ict.covers time with
    | true =>
      rw [h.lookup_covered hcovers] at hfound
      unfold Log.timesFrom
      rw [if_pos hcovers]
      exact h.after_recreatable time found hfound
    | false =>
      obtain ⟨earliest, -, hsearch⟩ := (h.lookup_recreatable hcovers _).mp hfound
      exact (h.searched_after hcovers).mp hsearch

variable {commit : Version × Int}

/-- Up to a version timed by its file, the assigned times are those the latest snapshot assigns. -/
theorem Kernel.times_at (hmem : commit ∈ monotonize log.fileTimed) :
    fileCommitTimes (log.snapshot commit.1) history =
      .ok ((monotonize log.fileTimed).takeWhile fun c => c.1 ≤ commit.1) := by
  have hversion : commit.1 ∈ log.fileTimed.map Prod.fst := by
    rw [← monotonizeFrom_versions i64Min]
    exact mem_map_of_mem hmem
  obtain ⟨file, hfile, hsame⟩ := mem_map.mp hversion
  have hrun := log.fileTimed_run hfile
  have hpublished := lastRun_mem hrun
  have hlatest : commit.1 ≤ log.latest := by
    rw [← hsame]
    simpa using mem_takeWhile_imp hpublished
  have hsnapshot : log.snapshot commit.1 = ⟨commit.1, false, none, none⟩ := by
    unfold Log.snapshot
    cases henabled : log.enabled with
    | none => rfl
    | some start =>
      have hbefore := log.file_before henabled hmem
      dsimp only
      rw [if_neg (Nat.not_le.mpr hbefore)]
  have hascending : Ascending (log.commits.takeWhile fun c => c.1 ≤ log.latest) :=
    h.ascending.sublist (takeWhile_sublist _)
  have hpart := lastRun_takeWhile hascending ⟨file, hrun, hsame⟩
  have hnested : ((log.commits.takeWhile fun c => c.1 ≤ log.latest).takeWhile
      fun c => c.1 ≤ commit.1) = log.commits.takeWhile fun c => c.1 ≤ commit.1 := by
    rw [takeWhile_takeWhile]
    congr 1
    funext c
    simp only [decide_eq_true_eq, decide_eq_decide]
    exact ⟨fun hboth => hboth.1, fun hle => ⟨hle, Nat.le_trans hle hlatest⟩⟩
  rw [hnested] at hpart
  have hfiles : log.run.takeWhile (fun c => c.1 ≤ commit.1) =
      log.fileTimed.takeWhile fun c => c.1 ≤ commit.1 := by
    unfold Log.fileTimed
    cases henabled : log.enabled with
    | none => rfl
    | some start =>
      have hbefore := log.file_before henabled hmem
      dsimp only
      rw [filter_ascending h.run_ascending, takeWhile_takeWhile]
      congr 1
      funext c
      simp only [decide_eq_true_eq, decide_eq_decide]
      exact ⟨fun hle => ⟨hle, Nat.lt_of_le_of_lt hle hbefore⟩, fun hboth => hboth.1⟩
  unfold fileCommitTimes
  rw [hsnapshot]
  have hict : (⟨commit.1, false, none, none⟩ : Snapshot).ict = .ok .off := rfl
  rw [hict, ok_bind]
  dsimp only
  rw [h.listing, ok_bind, h.listed, hpart]
  unfold monotonize
  rw [← monotonizeFrom_takeWhile i64Min log.fileTimed fun v => decide (v ≤ commit.1), ← hfiles]
  rfl

theorem Kernel.commitTime_file (hmem : commit ∈ monotonize log.fileTimed) :
    commitTime (log.snapshot commit.1) history ownTime = .ok commit.2 := by
  have htimes := h.times_at hmem
  have hict : (log.snapshot commit.1).ict = .ok .off := by
    unfold Log.snapshot
    cases henabled : log.enabled with
    | none => rfl
    | some start =>
      have hbefore := log.file_before henabled hmem
      dsimp only
      rw [if_neg (Nat.not_le.mpr hbefore)]
      rfl
  have hversion : (log.snapshot commit.1).version = commit.1 := by
    unfold Log.snapshot
    split
    · rfl
    · split <;> rfl
  have hself : commit ∈ (monotonize log.fileTimed).takeWhile fun c => c.1 ≤ commit.1 := by
    obtain ⟨before, after, hsplit⟩ := append_of_mem hmem
    have hascending := h.assigned_ascending
    rw [hsplit] at hascending ⊢
    rw [hascending.takeWhile_append ⟨commit, by simp, rfl⟩]
    simp
  unfold commitTime
  rw [hict, ok_bind, if_neg (by simp), htimes, ok_bind]
  cases hlast : ((monotonize log.fileTimed).takeWhile fun c => c.1 ≤ commit.1).getLast? with
  | none =>
    rw [List.getLast?_eq_none_iff] at hlast
    rw [hlast] at hself
    cases hself
  | some last =>
    have hlastMem := mem_of_getLast? hlast
    have hge := getLast?_ascending
      (h.assigned_ascending.sublist (takeWhile_sublist _)) hlast hself
    have hle : last.1 ≤ commit.1 := by simpa using mem_takeWhile_imp hlastMem
    obtain rfl : last = commit := h.assigned_ascending.eq_of_version
      (takeWhile_subset _ hlastMem) hmem (Nat.le_antisymm hle hge)
    dsimp only
    rw [hversion, if_pos rfl]

/-- The time a file gives its version names that version, while in-commit timestamps start later. -/
theorem Kernel.file_named (hmem : commit ∈ monotonize log.fileTimed)
    (hlate : log.ict.covers commit.2 = false) (hmax : commit.2 ≠ i64Max) :
    IsLastBy log.times commit.2 commit ∧ IsFirstFrom (log.timesFrom commit.2) commit.2 commit := by
  have hlater : ∀ other ∈ monotonize log.fileTimed, other.1 < commit.1 → other.2 < commit.2 := by
    intro other hother hlt
    obtain ⟨before, after, hsplit⟩ := append_of_mem hmem
    have hascending := h.assigned_ascending
    have htimes := h.assigned_later
    rw [hsplit] at hother hascending htimes
    rw [mem_append, mem_cons] at hother
    rcases hother with hbefore | rfl | hafter
    · have hbelow := (pairwise_append.mp htimes).2.2 other hbefore commit (by simp)
      unfold Later at hbelow
      exact hbelow.resolve_right fun hboth => hmax hboth.2
    · exact absurd hlt (Nat.lt_irrefl _)
    · have habove := rel_of_pairwise_cons (pairwise_append.mp hascending).2.1 hafter
      exact absurd (Nat.lt_trans hlt habove) (Nat.lt_irrefl _)
  have hearlier : ∀ other ∈ monotonize log.fileTimed, commit.1 < other.1 → commit.2 < other.2 := by
    intro other hother hlt
    obtain ⟨before, after, hsplit⟩ := append_of_mem hmem
    have hascending := h.assigned_ascending
    have htimes := h.assigned_later
    rw [hsplit] at hother hascending htimes
    rw [mem_append, mem_cons] at hother
    rcases hother with hbefore | rfl | hafter
    · have hbelow := (pairwise_append.mp hascending).2.2 other hbefore commit (by simp)
      exact absurd (Nat.lt_trans hlt hbelow) (Nat.lt_irrefl _)
    · exact absurd hlt (Nat.lt_irrefl _)
    · have habove := rel_of_pairwise_cons (pairwise_append.mp htimes).2.1 hafter
      unfold Later at habove
      exact habove.resolve_right fun hboth => hmax hboth.1
  rw [h.lastBy_files hlate, h.firstFrom_files hlate]
  refine ⟨⟨hmem, Int.le_refl _, ?_⟩, Or.inl ⟨hmem, Int.le_refl _, ?_⟩⟩
  · intro other hother hle
    by_contra hgt
    have := hearlier other hother (Nat.lt_of_not_le hgt)
    omega
  · intro other hother hle
    by_contra hlt
    have := hlater other hother (Nat.lt_of_not_le hlt)
    omega

theorem Kernel.inCommit_named (hmem : commit ∈ log.inCommits) :
    IsLastBy log.times commit.2 commit ∧ IsFirstFrom (log.timesFrom commit.2) commit.2 commit := by
  obtain ⟨enabled, start, henabled, hle, hlast, htime⟩ := id hmem
  have hcovers : log.ict.covers commit.2 = true :=
    log.covers_iff.mpr ⟨enabled, start, henabled, (h.start_le henabled hmem).2⟩
  have hstrict : ∀ other ∈ log.inCommits, ∀ other' ∈ log.inCommits, other.1 < other'.1 →
      other.2 < other'.2 := by
    rintro other ⟨enabled₁, start₁, henabled₁, hle₁, hlast₁, htime₁⟩ other'
      ⟨enabled₂, start₂, henabled₂, hle₂, hlast₂, htime₂⟩ hlt
    rw [htime₁, htime₂]
    exact h.increasing enabled₁ start₁ henabled₁ other.1 other'.1 hle₁ hlt hlast₂
  unfold Log.timesFrom
  rw [if_pos hcovers, h.lastBy_covered hcovers]
  refine ⟨⟨hmem, Int.le_refl _, ?_⟩, hmem, Int.le_refl _, ?_⟩
  · intro other hother hby
    by_contra hgt
    have := hstrict commit hmem other hother (Nat.lt_of_not_le hgt)
    omega
  · intro other hother hfrom
    by_contra hlt
    have := hstrict other hother commit hmem (Nat.lt_of_not_le hlt)
    omega

theorem Kernel.commitTime_own (hmem : commit ∈ log.inCommits) :
    commitTime (log.snapshot commit.1) history ownTime = .ok commit.2 := by
  obtain ⟨enabled, start, henabled, hle, hlast, htime⟩ := hmem
  have hsnapshot : log.snapshot commit.1 = ⟨commit.1, true, some enabled, some start⟩ := by
    unfold Log.snapshot
    rw [henabled]
    dsimp only
    rw [if_pos hle]
  have hict : (log.snapshot commit.1).ict = .ok (.since enabled start) := by
    rw [hsnapshot]
    rfl
  unfold commitTime
  rw [hict, ok_bind, if_pos (by simp), hsnapshot, htime]
  exact h.own enabled start henabled commit.1 hle hlast

/-- Files' times rise, up to the last time there is; a time names the last commit by it and the
first from it, in their order; and the time reported for a version names it,
where a file gave the time, if in-commit timestamps start later. -/
theorem times_and_versions :
    (List.Forall₂ (fun file assigned => file.1 = assigned.1 ∧ file.2 ≤ assigned.2) log.fileTimed
        (monotonize log.fileTimed) ∧ (monotonize log.fileTimed).Pairwise Later) ∧
    (∀ time found,
      lookup (log.snapshot log.latest) history time .atOrBefore .published = .ok (.ok found) ↔
        IsLastBy log.times time found) ∧
    (∀ time found earliest, log.ict.covers time = false →
      history.earliestCommit .recreatable = .ok earliest →
      (lookup (log.snapshot log.latest) history time .atOrBefore .recreatable = .ok (.ok found) ↔
        IsLastBy log.times time found ∧ earliest ≤ found.1)) ∧
    (∀ time found,
      lookup (log.snapshot log.latest) history time .atOrAfter .published = .ok (.ok found) ↔
        IsFirstFrom (log.timesFrom time) time found) ∧
    (∀ bound commitType first last found found', first ≤ last →
      lookup (log.snapshot log.latest) history first bound commitType = .ok (.ok found) →
      lookup (log.snapshot log.latest) history last bound commitType = .ok (.ok found') →
      found.1 ≤ found'.1) ∧
    (∀ commit ∈ monotonize log.fileTimed, log.ict.covers commit.2 = false → commit.2 ≠ i64Max →
      commitTime (log.snapshot commit.1) history ownTime = .ok commit.2 ∧
      ∀ bound, lookup (log.snapshot log.latest) history commit.2 bound .published =
        .ok (.ok commit)) ∧
    (∀ commit ∈ log.inCommits,
      commitTime (log.snapshot commit.1) history ownTime = .ok commit.2 ∧
      ∀ bound, lookup (log.snapshot log.latest) history commit.2 bound .published =
        .ok (.ok commit)) := by
  have hnamed : ∀ commit : Version × Int, IsLastBy log.times commit.2 commit →
      IsFirstFrom (log.timesFrom commit.2) commit.2 commit →
      ∀ bound, lookup (log.snapshot log.latest) history commit.2 bound .published =
        .ok (.ok commit) := by
    intro commit hlast hfirst bound
    cases bound with
    | atOrBefore => exact (h.before_iff commit.2 commit).mpr hlast
    | atOrAfter => exact (h.after_iff commit.2 commit).mpr hfirst
  refine ⟨⟨monotonizeFrom_raw _ _, h.assigned_later⟩, h.before_iff, ?_, h.after_iff, ?_, ?_, ?_⟩
  · intro time found earliest hcovers hearliest
    rw [h.lookup_recreatable hcovers, hearliest]
    simp only [Except.ok.injEq, exists_eq_left']
    exact h.searched_before hcovers
  · intro bound commitType first last found found' hle hfound hfound'
    cases bound with
    | atOrBefore => exact (h.before_sound hfound).mono hle (h.before_sound hfound')
    | atOrAfter => exact log.firstFrom_mono hle (h.after_sound hfound) (h.after_sound hfound')
  · intro commit hmem hlate hmax
    obtain ⟨hlast, hfirst⟩ := h.file_named hmem hlate hmax
    exact ⟨h.commitTime_file hmem, hnamed commit hlast hfirst⟩
  · intro commit hmem
    obtain ⟨hlast, hfirst⟩ := h.inCommit_named hmem
    exact ⟨h.commitTime_own hmem, hnamed commit hlast hfirst⟩

end

/-- Version 1 enabled them at time 50; the copy's files are of times 100 and 120. -/
def copiedLog : Log :=
  ⟨1, [("00000000000000000000.json".toList, 100), ("00000000000000000001.json".toList, 120)],
    some (1, 50), fun _ => 50⟩

def copiedHistory : History where
  latestVersionAsOf time _ := if 50 ≤ time then .ok (1, 50) else .error (.logHistory [])
  firstVersionAfter time _ := if time ≤ 50 then .ok (1, 50) else .error (.logHistory [])
  earliestCommit _ := .ok 0
  listing := .ok copiedLog.files

theorem copied_commits : copiedLog.commits = [(0, 100), (1, 120)] := by
  decide +kernel

theorem mem_copied_inCommits (commit : Version × Int) :
    commit ∈ copiedLog.inCommits ↔ commit = (1, 50) := by
  obtain ⟨version, time⟩ := commit
  constructor
  · rintro ⟨enabled, start, henabled, hle, hlast, htime⟩
    cases henabled
    exact Prod.ext (Nat.le_antisymm hlast hle) htime
  · intro heq
    cases heq
    exact ⟨1, 50, rfl, Nat.le_refl _, Nat.le_refl _, rfl⟩

theorem copied_lastBy (time : Int) (found : Version × Int) :
    copiedHistory.latestVersionAsOf time .published = .ok found ↔
      IsLastBy copiedLog.inCommits time found := by
  unfold IsLastBy
  simp only [copiedHistory, mem_copied_inCommits, forall_eq]
  split_ifs with hle
  · constructor
    · intro heq
      cases heq
      exact ⟨rfl, hle, fun _ => Nat.le_refl _⟩
    · rintro ⟨rfl, -, -⟩
      rfl
  · constructor
    · intro heq
      cases heq
    · rintro ⟨rfl, hby, -⟩
      exact absurd hby hle

theorem copied_firstFrom (time : Int) (found : Version × Int) :
    copiedHistory.firstVersionAfter time .published = .ok found ↔
      IsFirstFrom copiedLog.inCommits time found := by
  unfold IsFirstFrom
  simp only [copiedHistory, mem_copied_inCommits, forall_eq]
  split_ifs with hle
  · constructor
    · intro heq
      cases heq
      exact ⟨rfl, hle, fun _ => Nat.le_refl _⟩
    · rintro ⟨rfl, -, -⟩
      rfl
  · constructor
    · intro heq
      cases heq
    · rintro ⟨rfl, hfrom, -⟩
      exact absurd hfrom hle

theorem copied_kernel : Kernel copiedLog copiedHistory fun _ => .ok 50 where
  listing := rfl
  ascending := by
    unfold Ascending
    rw [copied_commits]
    decide
  bounded := by
    unfold Bounded
    rw [copied_commits]
    decide
  enabled_le := by
    intro enabled time henabled
    cases henabled
    exact ⟨Nat.le_refl _, rfl⟩
  increasing := by
    intro enabled time henabled version next hle hlt hlast
    cases henabled
    exact absurd (Nat.lt_of_le_of_lt hle hlt) (Nat.not_lt.mpr hlast)
  own := fun _ _ _ _ _ _ => rfl
  before := fun _ _ _ _ _ found => copied_lastBy _ found
  after := fun _ _ _ _ _ found => copied_firstFrom _ found
  before_recreatable := fun time found => (copied_lastBy time found).mp
  after_recreatable := fun time found => (copied_firstFrom time found).mp

theorem times_and_versions_copied :
    lookup (copiedLog.snapshot 1) copiedHistory 50 .atOrBefore .published = .ok (.ok (1, 50)) :=
  ((times_and_versions copied_kernel).2.2.2.2.2.2 (1, 50)
    ((mem_copied_inCommits (1, 50)).mpr rfl)).2 .atOrBefore

/-- The time reported for version 0 names version 1; and two file times at the last moment stay
equal. -/
theorem copied_renamed : Kernel copiedLog copiedHistory (fun _ => .ok 50) ∧
    (0, 100) ∈ monotonize copiedLog.fileTimed ∧
    commitTime (copiedLog.snapshot 0) copiedHistory (fun _ => .ok 50) = .ok 100 ∧
    lookup (copiedLog.snapshot copiedLog.latest) copiedHistory 100 .atOrBefore .published =
      .ok (.ok (1, 50)) ∧
    monotonize [(0, i64Max), (1, i64Max)] = [(0, i64Max), (1, i64Max)] := by
  have hmem : (0, 100) ∈ monotonize copiedLog.fileTimed := by
    unfold Log.fileTimed Log.run
    rw [copied_commits]
    decide
  exact ⟨copied_kernel, hmem, copied_kernel.commitTime_file hmem, rfl, by decide⟩

end DeltaSwamp.CommitTime
