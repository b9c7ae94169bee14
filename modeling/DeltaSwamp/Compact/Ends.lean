import DeltaSwamp.Compact.Kept

/-!
# A compaction ends

Without another writer every commit removes files the table had at the start,
and every step brings the end nearer: a step that commits leaves fewer files to
consider, a step that fails uses up a retry.
-/

namespace DeltaSwamp.Compact

open Table List

section
variable {ρ : Type} {upperChar lowerChar : Char → Text} {st : Storage ρ} {job : Job ρ}

/-- No other writer, so that what is read is the newest version. -/
def Alone (s : World) : Event → Prop
  | .write _ => False
  | .plan seen | .rebase seen => seen = s.log.length
  | _ => True

instance (s : World) : (e : Event) → Decidable (Alone s e)
  | .write _ => inferInstanceAs (Decidable False)
  | .plan seen | .rebase seen => inferInstanceAs (Decidable (seen = s.log.length))
  | .land _ | .commit _ | .accepted | .conflict | .missing | .cannotTell | .settle | .raise =>
    inferInstanceAs (Decidable True)

def livePaths (log : Log) : List Path := (files log).map AddFile.path

/-- What the call works on is the newest version. -/
def Current (log : Log) : Phase → Prop
  | .ready _ snapshot _ | .lost _ snapshot _ _ => snapshot = log
  | .sent _ _ put => put.snapshot = log ∨ log = put.snapshot ++ [put.entry]
  | .landed _ _ _ after => after = log
  | .plan _ | .finished | .raised => True

/-- The files there at the start and the ones the call wrote are all there is,
and of those it removes the first only. -/
structure Lone (st : Storage ρ) (initial : Log) (s : World) : Prop where
  sound : Sound st s
  current : Current s.log s.phase
  listed : ∀ path ∈ livePaths s.log,
    path ∈ livePaths initial ∨ ∃ c ∈ s.committed, path ∈ c.written
  started : ∀ c ∈ s.committed, ∀ path ∈ c.removed, path ∈ livePaths initial

variable {initial : Log} {s : World}

theorem Lone.committed_length_le (h : Lone st initial s) :
    s.committed.length ≤ (files initial).length := by
  have honce := h.sound.rowsKept.once
  have hsub : s.committed.flatMap Put.removed ⊆ livePaths initial := by
    intro path hpath
    obtain ⟨c, hc, hpath⟩ := mem_flatMap.mp hpath
    exact h.started c hc path hpath
  have hpaths := (honce.subperm hsub).length_le
  have hcount : ∀ puts : List Put, (∀ put ∈ puts, put.removed ≠ []) →
      puts.length ≤ (puts.flatMap Put.removed).length := by
    intro puts hne
    induction puts with
    | nil => simp
    | cons put puts ih =>
      have hrest := ih fun p hp => hne p (mem_cons_of_mem put hp)
      have hpos := length_pos_of_ne_nil (hne put mem_cons_self)
      rw [flatMap_cons, length_append, length_cons]
      omega
  have hbins : ∀ put ∈ s.committed, put.removed ≠ [] := by
    intro put hput
    obtain ⟨-, step, hbuilt⟩ := h.sound.sent put (h.sound.committed put hput).1
    exact hbuilt.nonempty
  have hle := hcount s.committed hbins
  rw [livePaths, length_map] at hpaths
  omega

theorem mem_newPaths {before after : Log} {path : Path} :
    path ∈ newPaths before after ↔ path ∈ livePaths after ∧ path ∉ livePaths before := by
  rw [newPaths, mem_filter, decide_eq_true_eq, livePaths, livePaths]

theorem Lone.land (h : Lone st initial s) {put : Put} (hput : put ∈ s.sent)
    (hversion : put.version = s.log.length) :
    Lone st initial { s with log := s.log ++ [put.entry], committed := s.committed ++ [put] } := by
  obtain ⟨hbefore, step, hbuilt⟩ := h.sound.sent put hput
  have hsnapshot : put.snapshot = s.log := hbefore.eq_of_length hversion
  obtain ⟨hpending, hapart⟩ := h.sound.free put hput hversion
  refine ⟨h.sound.land hput hversion, ?_, ?_, ?_⟩
  · have hcurrent := h.current
    revert hpending hcurrent
    cases s.phase with
    | sent p step' put' =>
      rintro rfl -
      exact .inr (by rw [hsnapshot])
    | plan p => exact fun hpending => hpending.elim
    | ready p snapshot step' => exact fun hpending => hpending.elim
    | lost p snapshot step' missing => exact fun hpending => hpending.elim
    | landed p snapshot step' after => exact fun hpending => hpending.elim
    | finished => exact fun _ _ => trivial
    | raised => exact fun _ _ => trivial
  · intro path hpath
    by_cases hold : path ∈ livePaths s.log
    · rcases h.listed path hold with hinitial | ⟨c, hc, hwritten⟩
      · exact .inl hinitial
      · exact .inr ⟨c, mem_append_left _ hc, hwritten⟩
    · have hnew : path ∈ put.written := by
        rw [Put.written, hsnapshot]
        exact mem_newPaths.mpr ⟨hpath, hold⟩
      exact .inr ⟨put, mem_append_right _ mem_cons_self, hnew⟩
  · intro c hc path hpath
    rcases mem_append.mp hc with hc | hc
    · exact h.started c hc path hpath
    · obtain rfl := mem_singleton.mp hc
      have hlive := hbuilt.live path hpath
      rw [hsnapshot] at hlive
      rcases h.listed path hlive with hinitial | ⟨c', hc', hwritten⟩
      · exact hinitial
      · exact absurd hpath (hapart c' hc' path (mem_append_right _ hwritten))

/-- The files of a table the next plan considers. -/
def remaining (done : List Path) (log : Log) : Finset Path :=
  (livePaths log).toFinset \ done.toFinset

/-- How far the call is from its end: a plan still has to go through every phase,
and each file left to consider and each retry may bring a plan again. -/
def Phase.distance (retries : Nat) (log : Log) : Phase → Nat
  | .plan p => 6 * (remaining p.done log).card + 6 * (retries - p.conflicts) + 5
  | .ready p snapshot _ => 6 * (remaining p.done snapshot).card + 6 * (retries - p.conflicts) + 4
  | .sent p _ put => 6 * (remaining p.done put.snapshot).card + 6 * (retries - p.conflicts) + 2
  | .lost p snapshot _ _ => 6 * (remaining p.done snapshot).card + 6 * (retries - p.conflicts) + 6
  | .landed p snapshot step after =>
    6 * (remaining (p.done ++ binPaths step ++ newPaths snapshot after) after).card +
      6 * (retries - p.conflicts) + 6
  | .finished | .raised => 0

/-- A put that has not landed is one more step to come. -/
def waiting (s : World) : Nat := if ∃ put ∈ s.sent, put.version = s.log.length then 1 else 0

def World.distance (retries : Nat) (s : World) : Nat := s.phase.distance retries s.log + waiting s

theorem remaining_lt {p : Progress} {snapshot : Log} {step : List Bin} (after : Log)
    (hfits : Fits snapshot step) (hfresh : Fresh p step) :
    (remaining (p.done ++ binPaths step ++ newPaths snapshot after) after).card <
      (remaining p.done snapshot).card := by
  obtain ⟨path, hpath⟩ := exists_mem_of_ne_nil _ hfits.nonempty
  apply Finset.card_lt_card
  rw [Finset.ssubset_iff_of_subset]
  · refine ⟨path, ?_, ?_⟩
    · rw [remaining, Finset.mem_sdiff, mem_toFinset, mem_toFinset]
      exact ⟨hfits.live path hpath, hfresh path hpath⟩
    · rw [remaining, Finset.mem_sdiff, mem_toFinset, mem_toFinset]
      intro hleft
      apply hleft.2
      simp [hpath]
  · intro q hq
    rw [remaining, Finset.mem_sdiff, mem_toFinset, mem_toFinset, mem_append,
      mem_append, mem_newPaths] at hq
    rw [remaining, Finset.mem_sdiff, mem_toFinset, mem_toFinset]
    obtain ⟨hlive, hnot⟩ := hq
    have hold : q ∈ livePaths snapshot := by
      by_contra hnew
      exact hnot (.inr ⟨hlive, hnew⟩)
    exact ⟨hold, fun hdone => hnot (.inl (.inl hdone))⟩

theorem waiting_le (s : World) : waiting s ≤ 1 := by
  unfold waiting
  split_ifs <;> omega

theorem waiting_eq_zero (h : Settled s) : waiting s = 0 := by
  unfold waiting
  rw [if_neg]
  rintro ⟨put, hput, hfree⟩
  exact h put hput hfree

theorem conflicted_distance (job : Job ρ) (p : Progress) (snapshot : Log) (step : List Bin)
    (missing : Bool)
    (log : Log) : (conflicted job p snapshot step missing).distance job.retries log <
      6 * (remaining p.done snapshot).card + 6 * (job.retries - p.conflicts) + 2 := by
  unfold conflicted
  split_ifs with hover
  · simp only [Phase.distance]
    omega
  · simp only [Phase.distance]
    omega

theorem planned_distance (p : Progress) (log : Log) :
    (planned job p log).distance job.retries log < (Phase.plan p).distance job.retries log := by
  unfold planned
  dsimp only
  split_ifs
  · simp [Phase.distance]
  · simp [Phase.distance]
  · simp [Phase.distance]

theorem rebased_distance {p : Progress} {log : Log} {step : List Bin} {missing : Bool} :
    (rebased upperChar lowerChar p log log step missing).distance job.retries log <
      (Phase.lost p log step missing).distance job.retries log := by
  unfold rebased
  cases hrebase : rebaseDvCommit upperChar lowerChar (fun _ _ => true) log log (binPaths step)
    none true with
  | error e => simp [Phase.distance]
  | ok result =>
    cases result with
    | none => simp [Phase.distance]
    | some fresh =>
      obtain ⟨rfl, -⟩ := rebaseDvCommit_eq_some_iff.mp hrebase
      by_cases hmissing : missing = true
      · simp [hmissing, Phase.distance]
      · simp [hmissing, Phase.distance]

/-- Alone, an advance comes nearer to the end. -/
theorem Lone.advanced (h : Lone st initial s) {e : Event} {after : Phase} (halone : Alone s e)
    (hstep : Advanced upperChar lowerChar job s.log s.phase e after) :
    Current s.log after ∧
      after.distance job.retries s.log < s.phase.distance job.retries s.log := by
  have hcurrent := h.current
  have hphase := h.sound.phase
  generalize hs : s.phase = phase at hstep hcurrent hphase
  cases hstep with
  | plan p seen =>
    obtain rfl : seen = s.log.length := halone
    rw [take_length]
    refine ⟨?_, planned_distance p s.log⟩
    unfold planned
    dsimp only
    split_ifs
    · trivial
    · trivial
    · exact rfl
  | accepted p step put hentry =>
    obtain ⟨-, hput, hbuilt, hfits, hfresh⟩ := hphase
    have hbefore := (h.sound.sent put hput).1
    have hlt := remaining_lt (s.log.take (put.version + 1)) hfits hfresh
    refine ⟨?_, ?_⟩
    · rcases hcurrent with hsame | hafter
      · have hnone : s.log[put.version]? = none := by simp [Put.version, hsame]
        rw [hnone] at hentry
        cases hentry
      · rw [Current, take_landed hbefore hentry, ← hafter]
    · simp only [Phase.distance]
      omega
  | conflict p step put hlt hlost =>
    rcases hcurrent with hsame | hafter
    · rw [Put.version, hsame] at hlt
      omega
    · apply absurd _ hlost
      rw [hafter, Put.version]
      simp
  | missing p snapshot step =>
    have hlt := conflicted_distance job p snapshot step true s.log
    refine ⟨?_, ?_⟩
    · unfold conflicted
      split_ifs
      · trivial
      · exact hcurrent
    · have hready : (Phase.ready p snapshot step).distance job.retries s.log =
        6 * (remaining p.done snapshot).card + 6 * (job.retries - p.conflicts) + 4 := rfl
      omega
  | rebase p snapshot step missing seen =>
    obtain rfl : seen = s.log.length := halone
    obtain rfl : snapshot = s.log := hcurrent
    rw [take_length]
    refine ⟨?_, rebased_distance⟩
    unfold rebased
    cases hrebase : rebaseDvCommit upperChar lowerChar (fun _ _ => true) s.log s.log
      (binPaths step) none true with
    | error e => trivial
    | ok result =>
      cases result with
      | none => trivial
      | some fresh =>
        obtain ⟨rfl, -⟩ := rebaseDvCommit_eq_some_iff.mp hrebase
        by_cases hmissing : missing = true
        · simp only [hmissing, if_true]
          trivial
        · simp only [hmissing]
          exact rfl
  | cannotTell p snapshot step missing =>
    obtain rfl : snapshot = s.log := hcurrent
    refine ⟨trivial, ?_⟩
    simp only [Phase.distance]
    omega
  | settle p snapshot step after =>
    obtain rfl : after = s.log := hcurrent
    refine ⟨trivial, ?_⟩
    simp only [settled, Phase.distance]
    omega
  | raise phase hactive =>
    refine ⟨trivial, ?_⟩
    cases phase with
    | finished => cases hactive
    | raised => cases hactive
    | _ =>
      simp only [Phase.distance]
      omega

theorem Lone.init {log : Log} (h : ValidLog st log) : Lone st log (World.init log) where
  sound := Sound.init h
  current := trivial
  listed := fun _ hpath => .inl hpath
  started := fun _ hc => nomatch hc

variable [DecidableEq ρ]

theorem Lone.commit {t : World} (h : Lone st initial s) {w : Storage.Written}
    (hnext : next upperChar lowerChar st job s (.commit w) = some t) :
    Lone st initial t ∧ t.distance job.retries < s.distance job.retries := by
  have hsound := h.sound.next hnext
  have hcurrent := h.current
  have hphase := h.sound.phase
  have hquiet : (∀ put, ¬Pending put s.phase) → Settled s := h.sound.settled
  simp only [next] at hnext
  unfold World.distance
  cases hs : s.phase with
  | ready p snapshot step =>
    rw [hs] at hnext hcurrent hphase hquiet
    obtain ⟨hcovers, -, hfits, hfresh⟩ := hphase
    have hsettled := waiting_eq_zero (hquiet fun _ => id)
    have hready : (Phase.ready p snapshot step).distance job.retries s.log =
      6 * (remaining p.done snapshot).card + 6 * (job.retries - p.conflicts) + 4 := rfl
    obtain ⟨made, hmade, rfl⟩ := Option.map_eq_some_iff.mp hnext
    obtain rfl | rfl | ⟨put, rfl, rfl, -⟩ := committing_cases hmade
    · refine ⟨⟨hsound, trivial, h.listed, h.started⟩, ?_⟩
      have hwaiting : waiting { s with phase := .raised } = waiting s := rfl
      have hraised : Phase.raised.distance job.retries s.log = 0 := rfl
      simp only [Option.toList_none, nil_append]
      omega
    · refine ⟨⟨hsound, hcurrent, h.listed, h.started⟩, ?_⟩
      have hlt := remaining_lt snapshot hfits hfresh
      have hwaiting : waiting { s with phase := .landed p snapshot step snapshot } =
        waiting s := rfl
      have hlanded : (Phase.landed p snapshot step snapshot).distance job.retries s.log =
        6 * (remaining (p.done ++ binPaths step ++ newPaths snapshot snapshot)
          snapshot).card + 6 * (job.retries - p.conflicts) + 6 := rfl
      simp only [Option.toList_none, nil_append]
      omega
    · refine ⟨⟨hsound, .inl hcurrent, h.listed, h.started⟩, ?_⟩
      have hwaiting := waiting_le { s with phase := .sent p step put, sent := put :: s.sent }
      simp only [Option.toList_some, singleton_append, Phase.distance]
      omega
  | _ =>
    rw [hs] at hnext
    cases hnext

/-- Alone, every event comes nearer to the end. -/
theorem Lone.next {t : World} {e : Event} (h : Lone st initial s) (halone : Alone s e)
    (hnext : next upperChar lowerChar st job s e = some t) :
    Lone st initial t ∧ t.distance job.retries < s.distance job.retries := by
  have hsound := h.sound.next hnext
  have hadvance : (advance upperChar lowerChar job s.log s.phase e).map
      (fun phase => { s with phase }) = some t →
      Lone st initial t ∧ t.distance job.retries < s.distance job.retries := by
    intro hstep
    obtain ⟨after, hafter, rfl⟩ := Option.map_eq_some_iff.mp hstep
    obtain ⟨hcurrent, hlt⟩ := h.advanced halone (advance_cases hafter)
    refine ⟨⟨hsound, hcurrent, h.listed, h.started⟩, ?_⟩
    have hwaiting : waiting { s with phase := after } = waiting s := rfl
    unfold World.distance
    rw [hwaiting]
    exact Nat.add_lt_add_right hlt _
  cases e with
  | write entry => exact halone.elim
  | land put =>
    simp only [Compact.next] at hnext
    split_ifs at hnext with hput
    cases hnext
    refine ⟨h.land hput.1 hput.2, ?_⟩
    have hwaiting : waiting s = 1 := if_pos ⟨put, hput.1, hput.2⟩
    have hsettled : Settled { s with log := s.log ++ [put.entry],
                                     committed := s.committed ++ [put] } := by
      intro put' hput' hfree
      have hle := version_le (h.sound.sent put' hput').1
      simp only [length_append, length_singleton] at hfree
      omega
    have hpending := (h.sound.free put hput.1 hput.2).1
    have hphase : s.phase.distance job.retries (s.log ++ [put.entry]) =
        s.phase.distance job.retries s.log := by
      revert hpending
      cases s.phase with
      | sent p step' put' => exact fun _ => rfl
      | finished => exact fun _ => rfl
      | raised => exact fun _ => rfl
      | plan p => exact fun hpending => hpending.elim
      | ready p snapshot step' => exact fun hpending => hpending.elim
      | lost p snapshot step' missing => exact fun hpending => hpending.elim
      | landed p snapshot step' after => exact fun hpending => hpending.elim
    unfold World.distance
    rw [waiting_eq_zero hsettled, hwaiting]
    dsimp only
    omega
  | commit w => exact h.commit hnext
  | plan seen => exact hadvance hnext
  | accepted => exact hadvance hnext
  | conflict => exact hadvance hnext
  | missing => exact hadvance hnext
  | rebase seen => exact hadvance hnext
  | cannotTell => exact hadvance hnext
  | settle => exact hadvance hnext
  | raise => exact hadvance hnext

/-- Whatever runs beside a compaction, its commits keep the rows, no file is
removed twice and none it wrote is removed. Without another writer it makes no
more commits than there were files, and no run of it goes on for ever. -/
theorem compact_keepsRows {log : Log} (hvalid : ValidLog st log) :
    (∀ s, Run (next upperChar lowerChar st job) (fun _ _ => True) (World.init log) s →
      RowsKept st s) ∧
    (∀ s, Run (next upperChar lowerChar st job) Alone (World.init log) s →
      s.committed.length ≤ (files log).length) ∧
    ∀ es s, replay (next upperChar lowerChar st job) Alone (World.init log) es = some s →
      es.length ≤ 6 * (files log).length + 6 * job.retries + 5 := by
  refine ⟨fun s hrun => ?_, fun s hrun => ?_, fun es s hrun => ?_⟩
  · have hsound : Sound st s :=
      hrun.invariant (Sound.init hvalid) fun _ _ _ h _ hnext => h.next hnext
    exact hsound.rowsKept
  · have hlone : Lone st log s :=
      hrun.invariant (Lone.init hvalid) fun _ _ _ h hok hnext => (h.next hok hnext).1
    exact hlone.committed_length_le
  · have hlength := length_le_of_replay (fun _ _ _ h hok hnext => h.next hok hnext)
      (Lone.init hvalid) hrun
    have hcard : (remaining [] log).card ≤ (files log).length := by
      rw [remaining, toFinset_nil, Finset.sdiff_empty]
      exact (toFinset_card_le _).trans (by rw [livePaths, length_map])
    have hstart : (World.init log).distance job.retries =
        6 * (remaining [] log).card + 6 * (job.retries - 0) + 5 + waiting (World.init log) := rfl
    have hwaiting : waiting (World.init log) = 0 :=
      waiting_eq_zero fun _ hput => nomatch hput
    omega

end

def exampleFile (name : Char) (rows : Nat) (vector : Option DeletionVector) : AddFile :=
  { path := [name], partitionValues := [], size := 10, dataChange := true, stats := none,
    numRecords := some rows, tags := [], deletionVector := vector, baseRowId := none,
    defaultRowCommitVersion := none }

def exampleStorage : Storage Nat where
  contents path :=
    if path = ['a'] then [1, 2] else if path = ['b'] then [3] else if path = ['c'] then [2, 3]
    else []
  hidden _ := {0}

def exampleTable : Log :=
  [{ adds := [exampleFile 'a' 2 (some ⟨['u'], ['v'], none, 1, 1⟩), exampleFile 'b' 1 none],
     removes := [], metaData := some ⟨"t", "", [], []⟩, protocol := some ⟨1, 2, none, none⟩,
     txns := [], commitInfo := none }]

theorem rows_oneBatch (rows : List (Path × Nat)) :
    ([⟨rows, 8 * rows.length⟩] : List (Streaming.FileBatch Nat)).flatMap
      Streaming.FileBatch.rows = rows := by
  simp

def exampleJob : Job Nat where
  options := ⟨100, 100, 100, false, 100⟩
  arrow := Streaming.numberArrow
  batches := fun rows => [⟨rows, 8 * rows.length⟩]
  rows_batches := rows_oneBatch
  retries := 1
  batchBytes := 100
  sortBy := []
  width _ := 1
  keep _ _ := true
  ordering _ := []
  cubeOf _ _ := none
  refuses _ := false

def examplePut : Put where
  snapshot := exampleTable
  entry :=
    { adds := [exampleFile 'c' 2 none],
      removes := [(['a'], some ['u', 'v']), (['b'], none)],
      metaData := none, protocol := none, txns := [], commitInfo := none }

def exampleEvents : List Event :=
  [.plan 1, .commit ⟨fun _ => ⟨['u'], ['w'], none, 1, 1⟩, fun _ => none, [exampleFile 'c' 2 none]⟩,
    .land examplePut, .accepted, .settle, .plan 2]

theorem exampleTable_valid : ValidLog exampleStorage exampleTable := by decide

abbrev exampleNext : World → Event → Option World :=
  next (fun c => [c.toUpper]) (fun c => [c.toLower]) exampleStorage exampleJob

theorem compact_keepsRows_example : ∃ s : World, s.committed = [examplePut] ∧
    RowsKept exampleStorage s ∧ s.committed.length ≤ 2 ∧ exampleEvents.length ≤ 23 := by
  have hreplay : (replay exampleNext Alone (World.init exampleTable) exampleEvents).map
      World.committed = some [examplePut] := by
    decide
  obtain ⟨s, hs, hcommitted⟩ := Option.map_eq_some_iff.mp hreplay
  have hrun : Run exampleNext Alone (World.init exampleTable) s := Run.of_replay hs
  have hrun' : Run exampleNext (fun _ _ => True) (World.init exampleTable) s :=
    hrun.weaken fun _ _ _ => trivial
  exact ⟨s, hcommitted, (compact_keepsRows exampleTable_valid).1 s hrun',
    (compact_keepsRows exampleTable_valid).2.1 s hrun,
    (compact_keepsRows exampleTable_valid).2.2 exampleEvents s hs⟩

end DeltaSwamp.Compact
