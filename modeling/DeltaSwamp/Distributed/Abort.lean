import DeltaSwamp.Distributed.Sound

/-!
# Deleting the files of a failed commit

Versions are positional: once a call has failed for certain, every put made for
its fragments has lost its version, and the landed check settles the rest.
-/

namespace DeltaSwamp.Distributed

section
variable {layoutStillFits : Text → Text → Bool} {plan : Plan} {fragments : List Fragment}

/-- Calls start with this `allow_concurrent_overwrite` only. -/
def SameMode (mode : Bool) : Event → Prop
  | .start _ args => args.allowConcurrentOverwrite = mode
  | _ => True

instance decidableSameMode (mode : Bool) : (e : Event) → Decidable (SameMode mode e)
  | .start _ args => inferInstanceAs (Decidable (args.allowConcurrentOverwrite = mode))
  | .write _ | .land _ | .go _ | .cannotTell _ | .send _ | .answer _ _ | .delete _ | .raise _ =>
    inferInstanceAs (Decidable True)

/-- Where calls of the mode put: right after the pinned version, or after the
only tail a plan without its catalog has. -/
def PutMode (plan : Plan) (mode : Bool) (put : Put) : Prop :=
  ∀ args : Args, args.allowConcurrentOverwrite = mode →
    (∀ v, pinned plan args = some v → put.version = v + 1) ∧
      (pinned plan args = none → stale plan = true → put.version = plan.tail + 1)

structure Moded (plan : Plan) (mode : Bool) (s : World) : Prop where
  args : ∀ i, (s.calls i).phase ≠ .idle → (s.calls i).args.allowConcurrentOverwrite = mode
  sent : ∀ put ∈ s.sent, PutMode plan mode put
  ready : ∀ i n tail checked again put,
    (s.calls i).phase = .ready n tail checked again put → PutMode plan mode put

variable {args : Args}

theorem pinned_congr {args' : Args}
    (h : args.allowConcurrentOverwrite = args'.allowConcurrentOverwrite) :
    pinned plan args = pinned plan args' := by
  unfold pinned guarded
  rw [h]

variable {mode : Bool} {s : World} {i : Nat} {phase : Phase}

theorem Moded.to (h : Moded plan mode s) (hstarted : (s.calls i).phase ≠ .idle)
    (hready : ∀ n tail checked again put, phase = .ready n tail checked again put →
      PutMode plan mode put) : Moded plan mode (s.to i phase) := by
  refine ⟨fun j hj => ?_, h.sent, fun j n tail checked again put hphase => ?_⟩
  · by_cases hi : j = i
    · subst hi
      simpa [World.to] using h.args j hstarted
    · simp only [World.to, Function.update_of_ne hi] at hj ⊢
      exact h.args j hj
  · by_cases hi : j = i
    · subst hi
      simp only [World.to, Function.update_self] at hphase
      exact hready n tail checked again put hphase
    · simp only [World.to, Function.update_of_ne hi] at hphase
      exact h.ready j n tail checked again put hphase

variable {log : Log} {tail : Nat} {entry : Entry}

theorem putMode_of_build (htail : TailSound plan log tail) :
    PutMode plan args.allowConcurrentOverwrite ⟨buildVersion plan args log tail + 1, entry⟩ := by
  intro args' hargs'
  rw [pinned_congr hargs']
  refine ⟨fun v hv => ?_, fun hnone hstale => ?_⟩
  · simp [buildVersion, hv]
  · have hmanaged : plan.managed = true := by
      simp only [stale, Bool.and_eq_true] at hstale
      exact hstale.1
    simp [buildVersion, hnone, snapshotVersion, hmanaged, htail.stale hstale]

variable {e : Event}

theorem Moded.step {t : World} (hs : Sound layoutStillFits plan fragments s) (h : Moded plan mode s)
    (hmode : SameMode mode e) (hstep : Step layoutStillFits plan fragments s e t) :
    Moded plan mode t := by
  cases hstep with
  | write entry _ => exact ⟨h.args, h.sent, h.ready⟩
  | land put _ _ => exact ⟨h.args, h.sent, h.ready⟩
  | start i args hidle =>
    refine ⟨fun j hj => ?_, h.sent, fun j n tail checked again put hphase => ?_⟩
    · by_cases hi : j = i
      · subst hi
        simpa [SameMode] using hmode
      · simp only [Function.update_of_ne hi] at hj ⊢
        exact h.args j hj
    · by_cases hi : j = i
      · subst hi
        simp at hphase
      · simp only [Function.update_of_ne hi] at hphase
        exact h.ready j n tail checked again put hphase
  | move e i phase _ hmove =>
    refine h.to ?_ fun n tail checked again put hready =>
      absurd hready (hmove.ne_ready n tail checked again put)
    intro hidle
    have hactive := hmove.active
    rw [hidle] at hactive
    cases hactive
  | build i n tail checked again entry hphase _ =>
    have hcall := hs.calls i
    rw [hphase] at hcall
    refine h.to (by simp [hphase]) ?_
    rintro n' tail' checked' again' put hput
    cases hput
    rw [← h.args i (by simp [hphase])]
    exact putMode_of_build hcall.1
  | send i n tail checked again put hphase =>
    have hto : Moded plan mode (s.to i (.sent n tail put)) := by
      refine h.to (by simp [hphase]) ?_
      rintro _ _ _ _ _ ⟨⟩
    refine ⟨hto.args, fun put' hput' => ?_, hto.ready⟩
    rcases List.mem_cons.mp hput' with rfl | hput'
    · exact h.ready i n tail checked again put' hphase
    · exact h.sent put' hput'
  | delete i hdeleting =>
    have hto : Moded plan mode (s.to i .raised) := by
      refine h.to (by simp [hdeleting]) ?_
      rintro _ _ _ _ _ ⟨⟩
    exact ⟨hto.args, hto.sent, hto.ready⟩

theorem Moded.init (mode : Bool) (log : Log) : Moded plan mode (World.init log) := by
  refine ⟨fun i hi => absurd rfl hi, fun put hput => ?_,
    fun i n tail checked again put hphase => ?_⟩
  · cases hput
  · cases hphase

/-- Every put made for the fragments has lost its version. -/
def Lost (sent : List Put) (log : Log) : Prop := ∀ put ∈ sent, put.version < log.length

def Unadded (fragments : List Fragment) (log : Log) : Prop := ∀ v, ¬ Adds fragments log v

/-- What a call that runs alone knows of the puts made so far. -/
def PhaseSettled (plan : Plan) (fragments : List Fragment) (sent : List Put) (log : Log) :
    Phase → Prop
  | .check _ tail | .guard _ tail _ | .resolve _ tail _ _ =>
    plan.managed = true → ∀ put ∈ sent, put.version ≤ tail + 1
  | .ready _ _ _ _ put | .sent _ _ put => ∀ put' ∈ sent, put'.version ≤ put.version
  | .failed => Lost sent log
  | .aborting tail =>
    Lost sent log ∧ (plan.managed = true → ∀ v, tail < v → ¬ Adds fragments log v)
  | .deleting => Lost sent log ∧ Unadded fragments log
  | .idle | .refresh _ _ | .returned _ | .raised => True

structure Settled (plan : Plan) (fragments : List Fragment) (i : Nat) (s : World) : Prop where
  phase : PhaseSettled plan fragments s.sent s.log (s.calls i).phase
  deleted : s.deleted = true →
    (s.calls i).phase = .raised ∧ Lost s.sent s.log ∧ Unadded fragments s.log

theorem Adds.of_write {v : Nat} (hother : ∀ path ∈ fragmentPaths fragments, path ∉ entry.adds)
    (h : Adds fragments (log ++ [entry]) v) : Adds fragments log v := by
  rcases h.of_append with h | ⟨_, path, hpath, hadds⟩
  · exact h
  · exact absurd hadds (hother path hpath)

variable {sent : List Put}

theorem Lost.append (h : Lost sent log) (entry : Entry) : Lost sent (log ++ [entry]) := by
  intro put hput
  have hlost := h put hput
  simp only [List.length_append, List.length_singleton]
  omega

theorem PhaseSettled.write (h : PhaseSettled plan fragments sent log phase)
    (hother : ∀ path ∈ fragmentPaths fragments, path ∉ entry.adds) :
    PhaseSettled plan fragments sent (log ++ [entry]) phase := by
  cases phase with
  | failed => exact Lost.append h entry
  | aborting tail =>
    exact ⟨h.1.append entry, fun hmanaged v hv hadds => h.2 hmanaged v hv (hadds.of_write hother)⟩
  | deleting => exact ⟨h.1.append entry, fun v hadds => h.2 v (hadds.of_write hother)⟩
  | _ => exact h

variable {put : Put}

theorem Lost.not_free (h : Lost sent log) (hsent : put ∈ sent) (hfree : put.version = log.length) :
    False := by
  have hlost := h put hsent
  omega

theorem PhaseSettled.land (h : PhaseSettled plan fragments sent log phase) (hsent : put ∈ sent)
    (hfree : put.version = log.length) :
    PhaseSettled plan fragments sent (log ++ [put.entry]) phase := by
  cases phase with
  | failed => exact (Lost.not_free h hsent hfree).elim
  | aborting tail => exact (h.1.not_free hsent hfree).elim
  | deleting => exact (h.1.not_free hsent hfree).elim
  | _ => exact h

theorem le_newest {v : Nat} (h : Adds fragments log v) : v ≤ newest log := by
  have := h.lt
  unfold newest
  omega

theorem version_le_build (hs : Sound layoutStillFits plan fragments s) (hm : Moded plan mode s)
    (hargs : args.allowConcurrentOverwrite = mode)
    (htail : plan.managed = true → ∀ put ∈ s.sent, put.version ≤ tail + 1) (hput : put ∈ s.sent) :
    put.version ≤ buildVersion plan args s.log tail + 1 := by
  unfold buildVersion
  cases hpinned : pinned plan args with
  | some v =>
    rw [(hm.sent put hput args hargs).1 v hpinned]
    exact le_rfl
  | none =>
    have hplaced := (hs.sent put hput).placed
    simp only [Option.getD_none, snapshotVersion]
    split_ifs with hmanaged
    · exact htail hmanaged put hput
    · unfold newest
      omega

theorem lost_of_changed (hs : Sound layoutStillFits plan fragments s) (hm : Moded plan mode s)
    (hargs : args.allowConcurrentOverwrite = mode) (hsound : TailSound plan s.log tail)
    (htail : plan.managed = true → ∀ put ∈ s.sent, put.version ≤ tail + 1)
    (hchanged : commitFiles layoutStillFits plan fragments
      (snapshotAt s.log (buildVersion plan args s.log tail)) = .error .metadataChanged) :
    Lost s.sent s.log := by
  intro put hput
  have hle := version_le_build hs hm hargs htail hput
  have hlt : buildVersion plan args s.log tail < s.log.length := hs.buildVersion_lt hsound
  rcases Nat.lt_or_ge put.version (buildVersion plan args s.log tail + 1) with hold | hnew
  · omega
  · -- a put at this very version was built on the snapshot that is now refused
    have hsame : put.version = buildVersion plan args s.log tail + 1 := by omega
    have hmade := (hs.sent put hput).made
    rw [hsame] at hmade
    rw [snapshotAt, hmade] at hchanged
    cases hchanged

theorem lost_of_moved (hs : Sound layoutStillFits plan fragments s)
    (hplanned : plan.managed = true → ∀ v, plan.version = some v → v ≤ plan.tail)
    (hm : Moded plan mode s) (hargs : args.allowConcurrentOverwrite = mode)
    (hsound : TailSound plan s.log tail) (hmoved : tableMoved plan args s.log tail = true) :
    Lost s.sent s.log := by
  simp only [tableMoved, Bool.and_eq_true] at hmoved
  obtain ⟨hguarded, hmoved⟩ := hmoved
  obtain ⟨v, hversion, hne⟩ := (Option.any_eq_true ..).mp hmoved
  have hne : v ≠ snapshotVersion plan s.log tail := by simpa using hne
  have hle : v ≤ snapshotVersion plan s.log tail := by
    unfold snapshotVersion
    split_ifs with hmanaged
    · exact (hplanned hmanaged v hversion).trans (hsound.resolved hmanaged)
    · have := hs.planned v hversion
      unfold newest
      omega
  have hlt := snapshotVersion_lt hsound hs.nonempty
  intro put hput
  have hpinned : pinned plan args = some v := by simp [pinned, hguarded, hversion]
  have hat := (hm.sent put hput args hargs).1 v hpinned
  omega

theorem freshTail_newest (hmanaged : plan.managed = true) (hstale : stale plan = false) :
    freshTail plan log tail = newest log := by
  have hcatalog : plan.catalog = true := by simpa [stale, hmanaged] using hstale
  simp [freshTail, hmanaged, hcatalog]

theorem version_le_freshTail (hs : Sound layoutStillFits plan fragments s)
    (hplanned : plan.managed = true → ∀ v, plan.version = some v → v ≤ plan.tail)
    (hm : Moded plan mode s) (hsound : TailSound plan s.log tail) (hmanaged : plan.managed = true)
    (hput : put ∈ s.sent) : put.version ≤ freshTail plan s.log tail + 1 := by
  cases hstale : stale plan with
  | false =>
    have := (hs.sent put hput).placed
    rw [freshTail_newest hmanaged hstale, newest]
    omega
  | true =>
    have hcatalog : plan.catalog = false := by simpa [stale, hmanaged] using hstale
    have hfresh : freshTail plan s.log tail = plan.tail := by
      simp [freshTail, hcatalog, hsound.stale hstale]
    have hmode := hm.sent put hput ⟨0, mode, true⟩ rfl
    rw [hfresh]
    cases hpinned : pinned plan ⟨0, mode, true⟩ with
    | none => exact (hmode.2 hpinned hstale).le
    | some v =>
      have hversion : plan.version = some v := by
        unfold pinned at hpinned
        split_ifs at hpinned
        exact hpinned
      have := hmode.1 v hpinned
      have := hplanned hmanaged v hversion
      omega

theorem PhaseSettled.move (hs : Sound layoutStillFits plan fragments s)
    (hnamed : fragmentPaths fragments ≠ [])
    (hplanned : plan.managed = true → ∀ v, plan.version = some v → v ≤ plan.tail)
    (hm : Moded plan mode s) (hargs : args.allowConcurrentOverwrite = mode) {phase' : Phase}
    (hsound : PhaseSound layoutStillFits plan fragments s.log phase)
    (h : PhaseSettled plan fragments s.sent s.log phase)
    (hmove : Move layoutStillFits plan fragments args s.log phase phase') :
    PhaseSettled plan fragments s.sent s.log phase' := by
  cases hmove with
  | refresh n tail =>
    exact fun hmanaged put hput => version_le_freshTail hs hplanned hm hsound hmanaged hput
  | absent n tail _ => exact h
  | found _ _ _ _ => trivial
  | moved n tail checked hmoved => exact lost_of_moved hs hplanned hm hargs hsound.1 hmoved
  | stayed n tail checked => exact h
  | changed n tail checked again hchanged => exact lost_of_changed hs hm hargs hsound.1 h hchanged
  | accepted _ _ _ _ => trivial
  | conflict n tail put hoccupied => exact fun put' hput' => (h put' hput').trans_lt hoccupied
  | retry _ _ _ => trivial
  | backfill n tail checked again put _ =>
    intro _ put' hput'
    have := (hs.sent put' hput').placed
    unfold newest
    omega
  | abort hstale =>
    refine ⟨h, fun hmanaged v hv hadds => ?_⟩
    rw [freshTail_newest hmanaged hstale] at hv
    have := le_newest hadds
    omega
  | unlanded tail hlanded =>
    refine ⟨h.1, fun v hadds => ?_⟩
    rcases Nat.lt_or_ge (snapshotVersion plan s.log tail) v with hpast | hread
    · unfold snapshotVersion at hpast
      split_ifs at hpast with hmanaged
      · exact h.2 hmanaged v hpast hadds
      · have := le_newest hadds
        omega
    · exact clear_of_landedVersion hnamed hs.unlanded hlanded v (Nat.lt_succ_of_le hread) hadds
  | raised _ _ => trivial

/-- A step of call `i`, or of no call. -/
def Alone (i : Nat) (e : Event) : Prop := e.call = none ∨ e.call = some i

instance decidableAlone (i : Nat) (e : Event) : Decidable (Alone i e) :=
  inferInstanceAs (Decidable (e.call = none ∨ e.call = some i))

theorem Alone.eq {j : Nat} (h : Alone i e) (hcall : e.call = some j) : j = i := by
  rcases h with hnone | hsome
  · rw [hnone] at hcall
    cases hcall
  · rw [hsome] at hcall
    exact (Option.some.inj hcall).symm

theorem Settled.step {t : World} (hs : Sound layoutStillFits plan fragments s)
    (hnamed : fragmentPaths fragments ≠ [])
    (hplanned : plan.managed = true → ∀ v, plan.version = some v → v ≤ plan.tail)
    (hm : Moded plan mode s) (h : Settled plan fragments i s) (halone : Alone i e)
    (hstep : Step layoutStillFits plan fragments s e t) : Settled plan fragments i t := by
  cases hstep with
  | write entry hother =>
    refine ⟨h.phase.write hother, fun hdeleted => ?_⟩
    obtain ⟨hraised, hlost, hnone⟩ := h.deleted hdeleted
    exact ⟨hraised, hlost.append entry, fun v hadds => hnone v (hadds.of_write hother)⟩
  | land put hsent hfree =>
    refine ⟨h.phase.land hsent hfree, fun hdeleted => ?_⟩
    exact ((h.deleted hdeleted).2.1.not_free hsent hfree).elim
  | start j args hidle =>
    obtain rfl := halone.eq rfl
    refine ⟨by simp [PhaseSettled], fun hdeleted => ?_⟩
    rw [(h.deleted hdeleted).1] at hidle
    cases hidle
  | move e j phase hcall hmove =>
    obtain rfl := halone.eq hcall
    have hstarted : (s.calls j).phase ≠ .idle := by
      intro hidle
      have hactive := hmove.active
      rw [hidle] at hactive
      cases hactive
    refine ⟨?_, fun hdeleted => ?_⟩
    · simpa [World.to] using
        h.phase.move hs hnamed hplanned hm (hm.args j hstarted) (hs.calls j) hmove
    · have hactive := hmove.active
      rw [(h.deleted hdeleted).1] at hactive
      cases hactive
  | build j n tail checked again entry hphase _ =>
    obtain rfl := halone.eq rfl
    have hcall := h.phase
    rw [hphase] at hcall
    have hargs := hm.args j (by simp [hphase])
    refine ⟨?_, fun hdeleted => ?_⟩
    · simpa [World.to, PhaseSettled] using
        fun put hput => version_le_build hs hm hargs hcall hput
    · have hraised := (h.deleted hdeleted).1
      rw [hphase] at hraised
      cases hraised
  | send j n tail checked again put hphase =>
    obtain rfl := halone.eq rfl
    have hcall := h.phase
    rw [hphase] at hcall
    refine ⟨?_, fun hdeleted => ?_⟩
    · simpa [World.to, PhaseSettled] using hcall
    · have hraised := (h.deleted hdeleted).1
      rw [hphase] at hraised
      cases hraised
  | delete j hdeleting =>
    obtain rfl := halone.eq rfl
    have hcall := h.phase
    rw [hdeleting] at hcall
    exact ⟨by simp [World.to, PhaseSettled], fun _ => ⟨by simp [World.to], hcall⟩⟩

theorem Run.moded (h : Written plan fragments log)
    (hrun : Run (next layoutStillFits plan fragments) (fun _ e => SameMode mode e)
      (World.init log) s) : Sound layoutStillFits plan fragments s ∧ Moded plan mode s := by
  refine hrun.invariant
    (P := fun s => Sound layoutStillFits plan fragments s ∧ Moded plan mode s)
    ⟨h.sound, .init mode log⟩ fun s t e hs hmode hnext => ?_
  have hstep := step_of_next hnext
  exact ⟨hs.1.step hstep, hs.2.step hs.1 hmode hstep⟩

/-- A call that no other call of the same fragments overlaps or follows fails
for certain only once every put made for them has lost its version, and the
files it deletes are added by no version, then or later. -/
theorem abort_deletes_unadded {log : Log} {mode : Bool} {i : Nat} {s t : World}
    (h : Written plan fragments log)
    (hbefore : Run (next layoutStillFits plan fragments) (fun _ e => SameMode mode e)
      (World.init log) s)
    (hidle : (s.calls i).phase = .idle) (hkept : s.deleted = false)
    (hrun : Run (next layoutStillFits plan fragments) (fun _ e => Alone i e ∧ SameMode mode e)
      s t) :
    ((t.calls i).phase = .failed → Lost t.sent t.log) ∧
      (t.deleted = true → Unadded fragments t.log) := by
  obtain ⟨hsound, hmoded⟩ := Run.moded h hbefore
  have hstart : Settled plan fragments i s := by
    refine ⟨?_, fun hdeleted => ?_⟩
    · rw [hidle]
      trivial
    · rw [hkept] at hdeleted
      cases hdeleted
  have hall : Sound layoutStillFits plan fragments t ∧ Moded plan mode t ∧
      Settled plan fragments i t := by
    refine hrun.invariant (P := fun t => Sound layoutStillFits plan fragments t ∧
      Moded plan mode t ∧ Settled plan fragments i t) ⟨hsound, hmoded, hstart⟩
      fun s t e hs hok hnext => ?_
    obtain ⟨hs, hm, hsettled⟩ := hs
    have hstep := step_of_next hnext
    exact ⟨hs.step hstep, hm.step hs hok.2 hstep,
      hsettled.step hs h.named h.tail_planned hm hok.1 hstep⟩
  refine ⟨fun hfailed => ?_, fun hdeleted => (hall.2.2.deleted hdeleted).2.2⟩
  have hphase := hall.2.2.phase
  rw [hfailed] at hphase
  exact hphase

end

def otherWrite : Entry := ⟨[], [], [], none⟩

/-- A call whose put times out. -/
def timesOut : List Event :=
  [.start 0 ⟨0, false, true⟩, .go 0, .go 0, .go 0, .go 0, .send 0, .answer 0 .transient]

/-- The next call, which loses its version and deletes the files. -/
def losesAndDeletes : List Event :=
  [.start 1 ⟨0, false, true⟩, .go 1, .go 1, .go 1, .go 1, .write otherWrite, .send 1,
    .answer 1 .conflict, .go 1, .go 1, .delete 1, .write otherWrite]

theorem abort_deletes_unadded_timesOut : ∃ t : World, t.deleted = true ∧
    Unadded oneFile t.log := by
  have hreplay : (replay appendNext (fun _ e => SameMode false e) (World.init emptyTable)
      timesOut).map (fun s => ((s.calls 1).phase, s.deleted)) = some (.idle, false) := by
    decide
  obtain ⟨s, hs, hstate⟩ := Option.map_eq_some_iff.mp hreplay
  have hlater : ((replay appendNext (fun _ e => SameMode false e) (World.init emptyTable)
      timesOut).bind fun s => (replay appendNext (fun _ e => Alone 1 e ∧ SameMode false e) s
      losesAndDeletes)).map (fun t => t.deleted) = some true := by
    decide
  rw [hs, Option.bind_some] at hlater
  obtain ⟨t, ht, hdeleted⟩ := Option.map_eq_some_iff.mp hlater
  obtain ⟨hidle, hkept⟩ := Prod.mk.inj hstate
  obtain ⟨_, hnone⟩ := abort_deletes_unadded written_append (Run.of_replay hs) hidle hkept
    (Run.of_replay ht)
  exact ⟨t, hdeleted, hnone hdeleted⟩

/-- The fragments committed again after their files were deleted. -/
def commitsDeleted : List Event :=
  [.start 2 ⟨0, false, true⟩, .go 2, .go 2, .go 2, .go 2, .send 2,
    .land { version := 3, entry := ⟨[['f']], [], [], none⟩ }]

/-- The same files, to overwrite the table with. -/
def overwritePlan : Plan := { appendPlan with overwrite := true }

/-- An unguarded call's put onto another writer's version times out. -/
def unguardedTimesOut : List Event :=
  [.write otherWrite, .start 0 ⟨0, true, true⟩, .go 0, .go 0, .go 0, .go 0, .send 0,
    .answer 0 .transient]

/-- A guarded call fails on that version and deletes the files, and then the put lands. -/
def guardedDeletes : List Event :=
  [.start 1 ⟨0, false, true⟩, .go 1, .go 1, .go 1, .go 1, .go 1, .delete 1,
    .land { version := 2, entry := ⟨[['f']], [], [], none⟩ }]

theorem written_overwrite : Written overwritePlan oneFile emptyTable := by
  refine ⟨by decide, by decide, by decide, ?_, ?_, by decide, by decide⟩
  · intro v hv
    cases hv
    decide
  · exact written_append.writtenAt

/-- Files deleted by one call are added by a later one, and by an earlier one that
`allow_concurrent_overwrite` kept from the guard. -/
theorem deleted_committed_again :
    (¬ ∀ (layoutStillFits : Text → Text → Bool) (plan : Plan) (fragments : List Fragment)
      (log : Log) (s : World), Written plan fragments log →
      Run (next layoutStillFits plan fragments) (fun _ _ => True) (World.init log) s →
      s.deleted = true → Unadded fragments s.log) ∧
    ¬ ∀ (layoutStillFits : Text → Text → Bool) (plan : Plan) (fragments : List Fragment)
      (log : Log) (i : Nat) (s t : World), Written plan fragments log →
      Run (next layoutStillFits plan fragments) (fun _ _ => True) (World.init log) s →
      (s.calls i).phase = .idle → s.deleted = false →
      Run (next layoutStillFits plan fragments) (fun _ e => Alone i e) s t →
      t.deleted = true → Unadded fragments t.log := by
  constructor
  · intro h
    have hreplay : (replay appendNext (fun _ _ => True) (World.init emptyTable)
        (losesAndDeletes ++ commitsDeleted)).map (fun s => (s.deleted, s.log[3]?)) =
        some (true, some ⟨[['f']], [], [], none⟩) := by
      decide
    obtain ⟨s, hs, hstate⟩ := Option.map_eq_some_iff.mp hreplay
    obtain ⟨hdeleted, hadded⟩ := Prod.mk.inj hstate
    exact h _ _ _ _ s written_append (Run.of_replay hs) hdeleted 3
      ⟨_, hadded, ['f'], by decide, by decide⟩
  · intro h
    have hreplay : (replay (next (fun a b => a == b) overwritePlan oneFile) (fun _ _ => True)
        (World.init emptyTable) unguardedTimesOut).map
          (fun s => ((s.calls 1).phase, s.deleted)) = some (.idle, false) := by
      decide
    obtain ⟨s, hs, hstate⟩ := Option.map_eq_some_iff.mp hreplay
    have hlater : ((replay (next (fun a b => a == b) overwritePlan oneFile) (fun _ _ => True)
        (World.init emptyTable) unguardedTimesOut).bind fun s =>
          replay (next (fun a b => a == b) overwritePlan oneFile) (fun _ e => Alone 1 e) s
            guardedDeletes).map (fun t => (t.deleted, t.log[2]?)) =
        some (true, some ⟨[['f']], [], [], none⟩) := by
      decide
    rw [hs, Option.bind_some] at hlater
    obtain ⟨t, ht, hended⟩ := Option.map_eq_some_iff.mp hlater
    obtain ⟨hidle, hkept⟩ := Prod.mk.inj hstate
    obtain ⟨hdeleted, hadded⟩ := Prod.mk.inj hended
    exact h _ _ _ _ 1 s t written_overwrite (Run.of_replay hs) hidle hkept (Run.of_replay ht)
      hdeleted 2 ⟨_, hadded, ['f'], by decide, by decide⟩

end DeltaSwamp.Distributed
