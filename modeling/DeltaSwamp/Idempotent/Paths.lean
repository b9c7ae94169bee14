import DeltaSwamp.Run
import DeltaSwamp.Table.Rebase

/-!
# Writes with a transaction id

The commits of `append`, `overwrite` and `commit_files` as each path makes
them: the snapshot it reads, the transaction check it makes there, the put of
the next version, and what it does when that version was lost. What a path
computes from a snapshot is left open: any files, any actions, or an error.
-/

namespace DeltaSwamp.Idempotent

open Table List

inductive CommitPath where
  /-- `append`; a plain overwrite is one that makes a single attempt. -/
  | append (overwrite : Bool) (retries : Option Int) (rereadable : Bool)
  /-- `_dv_dml`: an overwrite with a predicate, by deletion vectors or file rewrites. -/
  | dml
  /-- `_rewrite`: an overwrite with a predicate that writes the whole table again. -/
  | rewrite
  /-- `commit_files`, on the version given. -/
  | commitFiles (version : Option Nat)
  deriving DecidableEq

structure Job where
  path : CommitPath
  txn : Option (Text × Int)
  deriving DecidableEq

/-- What the commit of a DML statement rests on. -/
structure Reads where
  touched : List Path
  readPredicate : Option Text
  deriving DecidableEq

/-- A commit on its way to the log, with the snapshot it is built on. -/
structure Put where
  snapshot : Log
  txn : Option (Text × Int)
  entry : Entry
  deriving DecidableEq

/-- The version after the snapshot. -/
def Put.version (put : Put) : Nat := put.snapshot.length

inductive Phase where
  | idle
  /-- To read the snapshot of an attempt. -/
  | resolve (attempt : Nat)
  | stage (attempt : Nat) (snapshot : Log)
  | ready (attempt : Nat) (snapshot : Log) (reads : Reads)
  | sent (attempt : Nat) (put : Put) (reads : Reads)
  /-- The version was lost, and `_txn_won_race` is asked. -/
  | lost (attempt : Nat) (snapshot : Log) (reads : Reads)
  /-- `_rebase_dv_commit` past its transaction check. -/
  | rebase (attempt : Nat) (snapshot : Log) (reads : Reads)
  | done
  deriving DecidableEq

def Phase.active : Phase → Bool
  | .idle | .done => false
  | _ => true

structure Call where
  job : Job
  phase : Phase
  deriving DecidableEq

structure World where
  log : Log
  /-- Every put made. -/
  sent : List Put
  /-- The puts that landed, in order. -/
  landed : List Put
  calls : Nat → Call

inductive Event where
  /-- Another writer commits. -/
  | write (entry : Entry)
  | land (put : Put)
  | start (call : Nat) (job : Job)
  /-- A call reads the table, as far as the store or the catalog shows it. -/
  | resolve (call seen : Nat)
  | stage (call : Nat) (reads : Reads)
  | send (call : Nat) (entry : Entry)
  | conflict (call : Nat)
  /-- `_txn_won_race` reads the table; it may fail to. -/
  | race (call seen : Nat) (readable : Bool)
  | rebase (call seen : Nat)
  /-- The call returns, raises, or its process dies. -/
  | finish (call : Nat)
  deriving DecidableEq

section
variable (upperChar lowerChar : Char → Text) (keeps : Text → AddFile → Bool)

/-- `append_commit_retries` and `dml_commit_retries`. -/
def commitRetries : Nat := 15

/-- The attempts a path makes: the first, and its retries. -/
def CommitPath.attempts : CommitPath → Nat
  | .append overwrite retries rereadable =>
    if rereadable && !overwrite then 1 + (retries.getD commitRetries).toNat else 1
  | .dml | .rewrite => 1 + commitRetries
  | .commitFiles _ => 1

/-- Whether a path looks for its transaction in the snapshot it reads first. -/
def CommitPath.checks : CommitPath → Bool
  | .append _ _ _ | .commitFiles _ => true
  | .dml | .rewrite => false

def Job.recorded (job : Job) (snapshot : Log) : Bool := job.txn.any (records snapshot)

/-- The snapshot an attempt starts from. -/
def Job.snapshot (job : Job) (log : Log) (seen : Nat) : Log :=
  match job.path with
  | .commitFiles (some version) => log.take (version + 1)
  | _ => log.take seen

def resolved (job : Job) (log : Log) (seen attempt : Nat) : Phase :=
  let snapshot := job.snapshot log seen
  if job.path.checks && job.recorded snapshot then .done else .stage attempt snapshot

def conflicted (job : Job) (attempt : Nat) (put : Put) (reads : Reads) : Phase :=
  if job.path.attempts ≤ attempt + 1 then .done else .lost attempt put.snapshot reads

/-- `_txn_won_race`, on what it could read. -/
def txnWonRace (job : Job) (fresh : Option Log) : Bool :=
  job.txn.isSome && fresh.all job.recorded

def raced (job : Job) (fresh : Option Log) (attempt : Nat) (snapshot : Log) (reads : Reads) :
    Phase :=
  if txnWonRace job fresh then .done
  else if job.path.checks then .resolve (attempt + 1)
  else .rebase attempt snapshot reads

/-- The files a rebase is to find unchanged: `_rewrite` removes every one. -/
def touchedBy (job : Job) (snapshot : Log) (reads : Reads) : List Path :=
  if job.path = .rewrite then (files snapshot).map AddFile.path else reads.touched

/-- What a call does with the snapshot a rebase returns. -/
def rebased (job : Job) (fresh : Log) (attempt : Nat) (snapshot : Log) (reads : Reads) : Phase :=
  match rebaseDvCommit upperChar lowerChar keeps snapshot fresh (touchedBy job snapshot reads)
    reads.readPredicate false with
  | .ok (some fresh) =>
    if job.path = .rewrite then .stage (attempt + 1) fresh else .ready (attempt + 1) fresh reads
  | _ => .done

/-- What the call of an event does next, with the log as it is. -/
def advance (job : Job) (log : Log) : Phase → Event → Option Phase
  | .resolve attempt, .resolve _ seen => some (resolved job log seen attempt)
  | .stage attempt snapshot, .stage _ reads => some (.ready attempt snapshot reads)
  | .sent attempt put reads, .conflict _ =>
    if put.version < log.length then some (conflicted job attempt put reads) else none
  | .lost attempt snapshot reads, .race _ seen readable =>
    some (raced job (if readable then some (log.take seen) else none) attempt snapshot reads)
  | .rebase attempt snapshot reads, .rebase _ seen =>
    some (rebased upperChar lowerChar keeps job (log.take seen) attempt snapshot reads)
  | phase, .finish _ => if phase.active then some .done else none
  | _, _ => none

def World.to (s : World) (call : Nat) (phase : Phase) : World :=
  { s with calls := Function.update s.calls call { s.calls call with phase } }

/-- The put of a call: its actions, and its transaction. -/
def Job.put (job : Job) (snapshot : Log) (entry : Entry) : Put :=
  ⟨snapshot, job.txn, { entry with txns := job.txn.toList }⟩

/-- The call whose step an event is, but for a start and a put. -/
def Event.call : Event → Option Nat
  | .resolve i _ | .stage i _ | .conflict i | .race i _ _ | .rebase i _ | .finish i => some i
  | .write _ | .land _ | .start _ _ | .send _ _ => none

def next (s : World) (e : Event) : Option World :=
  match e with
  | .write entry => some { s with log := s.log ++ [entry] }
  | .land put =>
    if put ∈ s.sent ∧ put.version = s.log.length then
      some { s with log := s.log ++ [put.entry], landed := s.landed ++ [put] }
    else none
  | .start i job =>
    if (s.calls i).phase = .idle then
      some { s with calls := Function.update s.calls i ⟨job, .resolve 0⟩ }
    else none
  | .send i entry =>
    match (s.calls i).phase with
    | .ready attempt snapshot reads =>
      let put := (s.calls i).job.put snapshot entry
      some { s.to i (.sent attempt put reads) with sent := put :: s.sent }
    | _ => none
  | e =>
    e.call.bind fun i =>
      (advance upperChar lowerChar keeps (s.calls i).job s.log (s.calls i).phase e).map (s.to i)

def World.init (log : Log) : World :=
  { log, sent := [], landed := [], calls := fun _ => ⟨⟨.dml, none⟩, .idle⟩ }

end

/-- A version of the history recorded the transaction, or a later one of its application. -/
def Recorded (history : Log) (txn : Text × Int) : Prop :=
  ∃ e ∈ history, ∃ t ∈ e.txns, t.1 = txn.1 ∧ txn.2 ≤ t.2

/-- No version records less than one before it did. -/
def NeverLowered (history : Log) (app : Text) : Prop :=
  ((history.flatMap Entry.txns).filter fun t => t.1 = app).Pairwise fun t t' => t.2 ≤ t'.2

/-- Every commit of a transaction is built on a snapshot that does not record
it, so at most one lands on a history that has not recorded it, and where
nobody lowers a record, at most one at all. -/
structure AtMostOnce (s : World) : Prop where
  history : ∀ put ∈ s.landed,
    put.snapshot = s.log.take put.version ∧ s.log[put.version]? = some put.entry
  built : ∀ put ∈ s.landed, ∀ txn, put.txn = some txn → records put.snapshot txn = false
  once : ∀ put ∈ s.landed, ∀ put' ∈ s.landed, ∀ txn, put.txn = some txn → put'.txn = some txn →
    ¬ Recorded put.snapshot txn → ¬ Recorded put'.snapshot txn → put = put'
  single : ∀ txn, NeverLowered s.log txn.1 → ∀ put ∈ s.landed, ∀ put' ∈ s.landed,
    put.txn = some txn → put'.txn = some txn → put = put'

/-- What the code leaves to chance: no snapshot that a predicate overwrite
starts from, or is rebased onto, records its transaction. -/
def Unrecorded (s : World) : Event → Prop
  | .resolve i seen | .rebase i seen =>
    (s.calls i).job.path.checks = false → (s.calls i).job.recorded (s.log.take seen) = false
  | _ => True

instance (s : World) : (e : Event) → Decidable (Unrecorded s e)
  | .resolve i seen | .rebase i seen =>
    inferInstanceAs (Decidable ((s.calls i).job.path.checks = false →
      (s.calls i).job.recorded (s.log.take seen) = false))
  | .write _ | .land _ | .start _ _ | .stage _ _ | .send _ _ | .conflict _ | .race _ _ _
  | .finish _ => inferInstanceAs (Decidable True)

/-- A put as the code makes it. -/
structure Built (log : Log) (put : Put) : Prop where
  read : put.snapshot <+: log
  txns : put.entry.txns = put.txn.toList
  unrecorded : ∀ txn, put.txn = some txn → records put.snapshot txn = false

def PhaseSound (log : Log) (job : Job) : Phase → Prop
  | .stage _ snapshot | .ready _ snapshot _ => snapshot <+: log ∧ job.recorded snapshot = false
  | .rebase _ _ _ => job.path.checks = false
  | _ => True

structure Sound (s : World) : Prop where
  sent : ∀ put ∈ s.sent, Built s.log put
  landed : ∀ put ∈ s.landed, Built s.log put ∧ s.log[put.version]? = some put.entry
  calls : ∀ i, PhaseSound s.log (s.calls i).job (s.calls i).phase

theorem Built.append {log : Log} {put : Put} (h : Built log put) (entry : Entry) :
    Built (log ++ [entry]) put :=
  ⟨h.read.trans (prefix_append _ _), h.txns, h.unrecorded⟩

theorem PhaseSound.append {log : Log} {job : Job} {phase : Phase} (h : PhaseSound log job phase)
    (entry : Entry) : PhaseSound (log ++ [entry]) job phase := by
  cases phase with
  | stage attempt snapshot => exact ⟨h.1.trans (prefix_append _ _), h.2⟩
  | ready attempt snapshot reads => exact ⟨h.1.trans (prefix_append _ _), h.2⟩
  | rebase attempt snapshot reads => exact h
  | _ => trivial

theorem Job.snapshot_prefix (job : Job) (log : Log) (seen : Nat) :
    job.snapshot log seen <+: log := by
  unfold Job.snapshot
  split
  · exact take_prefix _ _
  · exact take_prefix _ _

theorem Job.snapshot_unchecked {job : Job} (h : job.path.checks = false) (log : Log) (seen : Nat) :
    job.snapshot log seen = log.take seen := by
  unfold Job.snapshot
  cases hpath : job.path with
  | commitFiles version => simp [hpath, CommitPath.checks] at h
  | _ => rfl

section
variable {upperChar lowerChar : Char → Text} {keeps : Text → AddFile → Bool}

variable {job : Job} {log : Log} {attempt : Nat}

theorem resolved_sound {seen : Nat}
    (h : job.path.checks = false → job.recorded (log.take seen) = false) :
    PhaseSound log job (resolved job log seen attempt) := by
  unfold resolved
  by_cases hfound : (job.path.checks && job.recorded (job.snapshot log seen)) = true
  · rw [if_pos hfound]
    trivial
  · rw [if_neg hfound]
    refine ⟨job.snapshot_prefix log seen, ?_⟩
    cases hchecks : job.path.checks with
    | true => simpa [hchecks] using hfound
    | false =>
      rw [Job.snapshot_unchecked hchecks]
      exact h hchecks

variable {snapshot : Log} {reads : Reads}

theorem rebased_sound {seen : Nat} (h : job.recorded (log.take seen) = false) :
    PhaseSound log job
      (rebased upperChar lowerChar keeps job (log.take seen) attempt snapshot reads) := by
  unfold rebased
  split
  · rename_i fresh hrebase
    obtain ⟨rfl, -⟩ := rebaseDvCommit_eq_some_iff.mp hrebase
    split_ifs
    · exact ⟨List.take_prefix _ _, h⟩
    · exact ⟨List.take_prefix _ _, h⟩
  · trivial

variable {put : Put}

theorem conflicted_sound : PhaseSound log job (conflicted job attempt put reads) := by
  unfold conflicted
  split_ifs <;> trivial

theorem raced_sound {fresh : Option Log} :
    PhaseSound log job (raced job fresh attempt snapshot reads) := by
  unfold raced
  split_ifs with hrace hchecks
  · trivial
  · trivial
  · simpa [PhaseSound] using hchecks

variable {s : World}

theorem advance_sound {i : Nat} {e : Event} {phase : Phase} (hi : e.call = some i)
    (hs : PhaseSound s.log (s.calls i).job (s.calls i).phase) (hok : Unrecorded s e)
    (h : advance upperChar lowerChar keeps (s.calls i).job s.log (s.calls i).phase e = some phase) :
    PhaseSound s.log (s.calls i).job phase := by
  cases e with
  | resolve j seen =>
    cases hi
    cases hphase : (s.calls i).phase <;> simp only [hphase, advance, reduceCtorEq,
      Option.some.injEq] at h
    exact h ▸ resolved_sound hok
  | stage j reads =>
    cases hphase : (s.calls i).phase <;> simp only [hphase, advance, reduceCtorEq,
      Option.some.injEq] at h
    rw [hphase] at hs
    exact h ▸ hs
  | conflict j =>
    cases hphase : (s.calls i).phase <;> simp only [hphase, advance, reduceCtorEq,
      Option.ite_none_right_eq_some, Option.some.injEq] at h
    exact h.2 ▸ conflicted_sound
  | race j seen readable =>
    cases hphase : (s.calls i).phase <;> simp only [hphase, advance, reduceCtorEq,
      Option.some.injEq] at h
    exact h ▸ raced_sound
  | rebase j seen =>
    cases hi
    cases hphase : (s.calls i).phase <;> simp only [hphase, advance, reduceCtorEq,
      Option.some.injEq] at h
    rw [hphase] at hs
    exact h ▸ rebased_sound (hok hs)
  | finish j =>
    simp only [advance, Option.ite_none_right_eq_some, Option.some.injEq] at h
    rw [← h.2]
    trivial
  | write | land | start | send => simp [Event.call] at hi

theorem Sound.write (h : Sound s) (entry : Entry) : Sound { s with log := s.log ++ [entry] } where
  sent put hput := (h.sent put hput).append entry
  landed put hput := by
    obtain ⟨hbuilt, hentry⟩ := h.landed put hput
    refine ⟨hbuilt.append entry, ?_⟩
    rw [List.getElem?_append_left (List.getElem?_eq_some_iff.mp hentry).1]
    exact hentry
  calls i := (h.calls i).append entry

theorem Sound.land (h : Sound s) (hsent : put ∈ s.sent) (hfree : put.version = s.log.length) :
    Sound { s with log := s.log ++ [put.entry], landed := s.landed ++ [put] } where
  sent := (h.write put.entry).sent
  landed put' hput := by
    rcases mem_append.mp hput with hput | hput
    · exact (h.write put.entry).landed put' hput
    · obtain rfl := mem_singleton.mp hput
      refine ⟨(h.sent put' hsent).append put'.entry, ?_⟩
      rw [hfree, List.getElem?_concat_length]
  calls := (h.write put.entry).calls

theorem Sound.to (h : Sound s) {i : Nat} {phase : Phase}
    (hphase : PhaseSound s.log (s.calls i).job phase) : Sound (s.to i phase) where
  sent := h.sent
  landed := h.landed
  calls j := by
    by_cases hj : j = i
    · subst hj
      simpa [World.to] using hphase
    · simpa [World.to, Function.update_of_ne hj] using h.calls j

theorem built_put {entry : Entry} (hread : snapshot <+: log)
    (hjob : job.recorded snapshot = false) :
    Built log (job.put snapshot entry) where
  read := hread
  txns := rfl
  unrecorded txn htxn := by
    have htxn : job.txn = some txn := htxn
    rw [Job.recorded, htxn] at hjob
    exact hjob

/-- Every event keeps the invariant, but a commit on a snapshot that misses the transaction. -/
theorem Sound.step {t : World} {e : Event} (h : Sound s) (hok : Unrecorded s e)
    (hnext : next upperChar lowerChar keeps s e = some t) : Sound t := by
  have move : ∀ i phase, e.call = some i →
      advance upperChar lowerChar keeps (s.calls i).job s.log (s.calls i).phase e = some phase →
      Sound (s.to i phase) := fun i phase hi hphase =>
    h.to (advance_sound hi (h.calls i) hok hphase)
  cases e with
  | write entry =>
    cases hnext
    exact h.write entry
  | land put =>
    simp only [next, Option.ite_none_right_eq_some, Option.some.injEq] at hnext
    obtain ⟨⟨hsent, hfree⟩, rfl⟩ := hnext
    exact h.land hsent hfree
  | start i job =>
    simp only [next, Option.ite_none_right_eq_some, Option.some.injEq] at hnext
    obtain ⟨-, rfl⟩ := hnext
    refine ⟨h.sent, h.landed, fun j => ?_⟩
    by_cases hj : j = i
    · subst hj
      simp [PhaseSound]
    · simpa [Function.update_of_ne hj] using h.calls j
  | send i entry =>
    have hcall := h.calls i
    cases hphase : (s.calls i).phase <;> simp only [hphase, next, reduceCtorEq,
      Option.some.injEq] at hnext
    rename_i attempt snapshot reads
    rw [hphase] at hcall
    subst hnext
    have hto : Sound (s.to i (.sent attempt ((s.calls i).job.put snapshot entry) reads)) :=
      h.to trivial
    refine ⟨fun put hput => ?_, hto.landed, hto.calls⟩
    rcases mem_cons.mp hput with rfl | hput
    · exact built_put hcall.1 hcall.2
    · exact h.sent put hput
  | resolve i _ | stage i _ | conflict i | race i _ _ | rebase i _ | finish i =>
    obtain ⟨phase, hphase, rfl⟩ := Option.map_eq_some_iff.mp hnext
    exact move i phase rfl hphase

theorem Sound.init (log : Log) : Sound (World.init log) where
  sent put hput := by cases hput
  landed put hput := by cases hput
  calls i := trivial

theorem Sound.history (h : Sound s) (hput : put ∈ s.landed) :
    put.snapshot = s.log.take put.version ∧ s.log[put.version]? = some put.entry :=
  ⟨prefix_iff_eq_take.mp (h.landed put hput).1.read, (h.landed put hput).2⟩

variable {txn : Text × Int}

theorem Sound.recorded (h : Sound s) {put' : Put} (hput : put ∈ s.landed) (hput' : put' ∈ s.landed)
    (htxn : put.txn = some txn) (hlt : put.version < put'.version) :
    Recorded put'.snapshot txn := by
  obtain ⟨hsnapshot, -⟩ := h.history hput'
  refine ⟨put.entry, ?_, txn, ?_, rfl, le_rfl⟩
  · rw [hsnapshot]
    apply mem_of_getElem? (i := put.version)
    rw [List.getElem?_take_of_lt hlt]
    exact (h.history hput).2
  · rw [(h.landed put hput).1.txns, htxn]
    simp

theorem Sound.eq_of_version (h : Sound s) {put' : Put} (hput : put ∈ s.landed)
    (hput' : put' ∈ s.landed) (htxn : put.txn = some txn) (htxn' : put'.txn = some txn)
    (hversion : put.version = put'.version) : put = put' := by
  obtain ⟨hsnapshot, hentry⟩ := h.history hput
  obtain ⟨hsnapshot', hentry'⟩ := h.history hput'
  rw [← hversion] at hsnapshot' hentry'
  have hread : put.snapshot = put'.snapshot := hsnapshot.trans hsnapshot'.symm
  have hsame : put.entry = put'.entry := Option.some.inj (hentry.symm.trans hentry')
  cases put with
  | mk snapshot txn entry =>
    cases put' with
    | mk snapshot' txn' entry' =>
      dsimp only at hread htxn htxn' hsame
      rw [hread, htxn, htxn', hsame]

theorem le_getLast {ts : List (Text × Int)} (h : ts.Pairwise fun t t' => t.2 ≤ t'.2)
    (hne : ts ≠ []) : ∀ t ∈ ts, t.2 ≤ (ts.getLast hne).2 := by
  intro t ht
  rw [← dropLast_append_getLast hne] at h ht
  rcases mem_append.mp ht with ht | ht
  · exact (pairwise_append.mp h).2.2 t ht _ (mem_singleton.mpr rfl)
  · exact le_of_eq (congrArg Prod.snd (mem_singleton.mp ht))

theorem records_of_recorded {history : Log} (hlowered : NeverLowered history txn.1)
    (h : Recorded history txn) : records history txn = true := by
  obtain ⟨e, he, t, ht, happ, hle⟩ := h
  have hmem : t ∈ (history.flatMap Entry.txns).filter fun t => t.1 = txn.1 :=
    mem_filter.mpr ⟨mem_flatMap.mpr ⟨e, he, ht⟩, by simpa using happ⟩
  have hne := ne_nil_of_mem hmem
  have hlast := le_getLast hlowered hne t hmem
  rw [records, appIdVersion, List.getLast?_eq_some_getLast hne, Option.map_some, Option.any_some,
    decide_eq_true_eq]
  exact hle.trans hlast

theorem NeverLowered.take {history : Log} {app : Text} (h : NeverLowered history app) (n : Nat) :
    NeverLowered (history.take n) app := by
  have hsub : ((history.take n).flatMap Entry.txns).Sublist (history.flatMap Entry.txns) := by
    conv_rhs => rw [← take_append_drop n history, flatMap_append]
    exact sublist_append_left _ _
  exact h.sublist (hsub.filter _)

theorem Sound.atMostOnce (h : Sound s) : AtMostOnce s where
  history _ hput := h.history hput
  built put hput := (h.landed put hput).1.unrecorded
  once put hput put' hput' txn htxn htxn' hnot hnot' := by
    rcases Nat.lt_trichotomy put.version put'.version with hlt | heq | hgt
    · exact absurd (h.recorded hput hput' htxn hlt) hnot'
    · exact h.eq_of_version hput hput' htxn htxn' heq
    · exact absurd (h.recorded hput' hput htxn' hgt) hnot
  single txn hlowered put hput put' hput' htxn htxn' := by
    have unrecorded : ∀ p ∈ s.landed, p.txn = some txn → ¬ Recorded p.snapshot txn := by
      intro p hp htxn hrecorded
      have hlowered' : NeverLowered p.snapshot txn.1 := by
        rw [(h.history hp).1]
        exact hlowered.take _
      have hnone := (h.landed p hp).1.unrecorded txn htxn
      rw [records_of_recorded hlowered' hrecorded] at hnone
      cases hnone
    rcases Nat.lt_trichotomy put.version put'.version with hlt | heq | hgt
    · exact absurd (h.recorded hput hput' htxn hlt) (unrecorded put' hput' htxn')
    · exact h.eq_of_version hput hput' htxn htxn' heq
    · exact absurd (h.recorded hput' hput htxn' hgt) (unrecorded put hput htxn)

end

def emptyTable : Log :=
  [{ adds := [], removes := [], metaData := some ⟨"t", "", [], []⟩,
     protocol := some ⟨1, 2, none, none⟩, txns := [], commitInfo := none }]

end DeltaSwamp.Idempotent
