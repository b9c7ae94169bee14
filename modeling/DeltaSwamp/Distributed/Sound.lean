import DeltaSwamp.Distributed.Commit

/-!
# What holds in every state

Whatever the order of the steps, a put is what `commit_files` made of the log
before its version, a version adds all of the fragments' files or none, and a
landed check that finds nothing read a log in which nothing landed.
-/

namespace DeltaSwamp.Distributed

open List

section
variable {layoutStillFits : Text → Text → Bool} {plan : Plan} {fragments : List Fragment}

/-- The version adds one of the fragments' files. -/
def Adds (fragments : List Fragment) (log : Log) (version : Nat) : Prop :=
  ∃ e, log[version]? = some e ∧ ∃ path ∈ fragmentPaths fragments, path ∈ e.adds

def AddsAll (fragments : List Fragment) (log : Log) (version : Nat) : Prop :=
  ∃ e, log[version]? = some e ∧ ∀ path ∈ fragmentPaths fragments, path ∈ e.adds

/-- No version before `bound` adds any of the files. -/
def Clear (fragments : List Fragment) (log : Log) (bound : Nat) : Prop :=
  ∀ version < bound, ¬ Adds fragments log version

def AtMostOnce (fragments : List Fragment) (log : Log) : Prop :=
  ∀ v w, Adds fragments log v → Adds fragments log w → v = w

variable {log : Log} {entry : Entry} {v : Nat}

theorem getElem?_append_of_lt (h : v < log.length) :
    (log ++ [entry])[v]? = log[v]? := List.getElem?_append_left h

theorem getElem?_append {e : Entry} (h : (log ++ [entry])[v]? = some e) :
    log[v]? = some e ∨ v = log.length ∧ e = entry := by
  rcases Nat.lt_trichotomy v log.length with hlt | rfl | hgt
  · exact .inl (getElem?_append_of_lt hlt ▸ h)
  · simp only [List.getElem?_concat_length, Option.some.injEq] at h
    exact .inr ⟨rfl, h.symm⟩
  · rw [List.getElem?_eq_none (by simp only [length_append, length_singleton]; omega)] at h
    cases h

theorem Adds.lt (h : Adds fragments log v) : v < log.length := by
  obtain ⟨e, he, _⟩ := h
  exact (List.getElem?_eq_some_iff.mp he).1

theorem Adds.of_append (h : Adds fragments (log ++ [entry]) v) :
    Adds fragments log v ∨
      v = log.length ∧ ∃ path ∈ fragmentPaths fragments, path ∈ entry.adds := by
  obtain ⟨e, he, hadds⟩ := h
  rcases getElem?_append he with he | ⟨rfl, rfl⟩
  · exact .inl ⟨e, he, hadds⟩
  · exact .inr ⟨rfl, hadds⟩

theorem AddsAll.append (h : AddsAll fragments log v) (entry : Entry) :
    AddsAll fragments (log ++ [entry]) v := by
  obtain ⟨e, he, hadds⟩ := h
  refine ⟨e, ?_, hadds⟩
  rw [getElem?_append_of_lt (List.getElem?_eq_some_iff.mp he).1, he]

theorem Clear.append {bound : Nat} (h : Clear fragments log bound) (hbound : bound ≤ log.length)
    (entry : Entry) : Clear fragments (log ++ [entry]) bound := by
  intro v hv hadds
  rcases hadds.of_append with hadds | ⟨rfl, _⟩
  · exact h v hv hadds
  · omega

theorem Clear.write {bound : Nat} (h : Clear fragments log bound)
    (hother : ∀ path ∈ fragmentPaths fragments, path ∉ entry.adds) :
    Clear fragments (log ++ [entry]) bound := by
  intro v hv hadds
  rcases hadds.of_append with hadds | ⟨_, path, hpath, hadds⟩
  · exact h v hv hadds
  · exact hother path hpath hadds

theorem mem_commitsAdding {snapshot : Log} {after : Nat} {paths : List Path} {n : Nat} :
    (v, n) ∈ commitsAdding snapshot after paths ↔
      ∃ e, snapshot[v]? = some e ∧ n = e.adds.countP (· ∈ paths) ∧ after < v ∧ 0 < n := by
  simp only [commitsAdding, mem_filter, mem_map, Prod.exists, Prod.mk.injEq,
    decide_eq_true_eq, mem_zipIdx_iff_getElem?]
  constructor
  · rintro ⟨⟨e, w, he, rfl, rfl⟩, hafter, hn⟩
    exact ⟨e, he, rfl, hafter, hn⟩
  · rintro ⟨e, he, rfl, hafter, hn⟩
    exact ⟨⟨e, v, he, rfl, rfl⟩, hafter, hn⟩

theorem getElem?_snapshotAt {version : Nat} (h : v ≤ version) :
    (snapshotAt log version)[v]? = log[v]? := List.getElem?_take_of_lt (by omega)

theorem clear_of_landedVersion {checked : Nat} (hnamed : fragmentPaths fragments ≠ [])
    (hbefore : Clear fragments log (landedAfter plan fragments + 1))
    (h : landedVersion plan fragments (snapshotAt log checked) = .ok none) :
    Clear fragments log (checked + 1) := by
  intro v hv hadds
  by_cases hafter : v ≤ landedAfter plan fragments
  · exact hbefore v (by omega) hadds
  · obtain ⟨e, he, path, hpath, hadds⟩ := hadds
    have hmem : (v, e.adds.countP (· ∈ fragmentPaths fragments)) ∈
        commitsAdding (snapshotAt log checked) (landedAfter plan fragments)
          (fragmentPaths fragments) := by
      refine mem_commitsAdding.mpr ⟨e, ?_, rfl, by omega, ?_⟩
      · rw [getElem?_snapshotAt (by omega), he]
      · exact countP_pos_iff.mpr ⟨path, hadds, by simpa using hpath⟩
    unfold landedVersion at h
    simp only [hnamed, if_false] at h
    split at h
    · rename_i hnil
      rw [hnil] at hmem
      cases hmem
    · split_ifs at h
      cases h
    · cases h

theorem adds_of_landedVersion {checked version : Nat}
    (h : landedVersion plan fragments (snapshotAt log checked) = .ok (some version)) :
    Adds fragments log version := by
  unfold landedVersion at h
  simp only at h
  split_ifs at h with hnamed
  · cases h
  · split at h
    · cases h
    · rename_i v n hone
      split_ifs at h
      cases h
      have hmem : (version, n) ∈ commitsAdding (snapshotAt log checked)
          (landedAfter plan fragments) (fragmentPaths fragments) := by
        rw [hone]
        exact mem_singleton_self _
      obtain ⟨e, he, rfl, _, hpos⟩ := mem_commitsAdding.mp hmem
      obtain ⟨path, hadds, hpath⟩ := countP_pos_iff.mp hpos
      refine ⟨e, ?_, path, by simpa using hpath, hadds⟩
      rw [← he, getElem?_snapshotAt]
      have hlt := (List.getElem?_eq_some_iff.mp he).1
      simp only [snapshotAt, length_take] at hlt
      omega
    · cases h

/-- The put is what `commit_files` makes of the log before its version. -/
structure Built (layoutStillFits : Text → Text → Bool) (plan : Plan) (fragments : List Fragment)
    (log : Log) (put : Put) : Prop where
  positive : 0 < put.version
  placed : put.version ≤ log.length
  made : commitFiles layoutStillFits plan fragments (log.take put.version) = .ok put.entry

theorem adds_of_commitFiles {snapshot : Log}
    (h : commitFiles layoutStillFits plan fragments snapshot = .ok entry) :
    entry.adds = files fragments := by
  unfold commitFiles at h
  split_ifs at h <;>
  · cases h
    rfl

theorem Built.append {put : Put} (h : Built layoutStillFits plan fragments log put)
    (entry : Entry) :
    Built layoutStillFits plan fragments (log ++ [entry]) put := by
  refine ⟨h.positive, ?_, ?_⟩
  · have hplaced := h.placed
    simp only [length_append, length_singleton]
    omega
  · rw [take_append_of_le_length h.placed]
    exact h.made

/-- A tail that some reading of the catalog listed. -/
structure TailSound (plan : Plan) (log : Log) (tail : Nat) : Prop where
  resolved : plan.managed = true → plan.tail ≤ tail
  listed : plan.managed = true → tail < log.length
  stale : stale plan = true → tail = plan.tail

def PhaseSound (layoutStillFits : Text → Text → Bool) (plan : Plan) (fragments : List Fragment)
    (log : Log) : Phase → Prop
  | .refresh _ tail | .check _ tail | .aborting tail => TailSound plan log tail
  | .guard _ tail checked | .resolve _ tail checked _ =>
    TailSound plan log tail ∧ checked < log.length
  | .ready _ tail checked _ put =>
    TailSound plan log tail ∧ checked < log.length ∧ Built layoutStillFits plan fragments log put
  | .sent _ tail put => TailSound plan log tail ∧ Built layoutStillFits plan fragments log put
  | .returned version => AddsAll fragments log version
  | .idle | .failed | .deleting | .raised => True

structure Sound (layoutStillFits : Text → Text → Bool) (plan : Plan) (fragments : List Fragment)
    (s : World) : Prop where
  nonempty : 0 < s.log.length
  planned : ∀ v, plan.version = some v → v < s.log.length
  tail : plan.managed = true → plan.tail < s.log.length
  wholly : ∀ e ∈ s.log,
    e.adds = files fragments ∨ ∀ path ∈ fragmentPaths fragments, path ∉ e.adds
  before : landedAfter plan fragments < s.log.length
  unlanded : Clear fragments s.log (landedAfter plan fragments + 1)
  sent : ∀ put ∈ s.sent, Built layoutStillFits plan fragments s.log put
  calls : ∀ i, PhaseSound layoutStillFits plan fragments s.log (s.calls i).phase

variable {tail : Nat}

theorem TailSound.append (h : TailSound plan log tail) (entry : Entry) :
    TailSound plan (log ++ [entry]) tail := by
  refine ⟨h.resolved, fun hmanaged => ?_, h.stale⟩
  have hlisted := h.listed hmanaged
  simp only [length_append, length_singleton]
  omega

variable {phase : Phase}

theorem PhaseSound.append (h : PhaseSound layoutStillFits plan fragments log phase)
    (entry : Entry) :
    PhaseSound layoutStillFits plan fragments (log ++ [entry]) phase := by
  have hlength : ∀ {n : Nat}, n < log.length → n < (log ++ [entry]).length := by
    intro n hn
    simp only [length_append, length_singleton]
    omega
  cases phase with
  | refresh n tail => exact TailSound.append h entry
  | check n tail => exact TailSound.append h entry
  | aborting tail => exact TailSound.append h entry
  | guard n tail checked => exact ⟨h.1.append entry, hlength h.2⟩
  | resolve n tail checked again => exact ⟨h.1.append entry, hlength h.2⟩
  | ready n tail checked again put =>
    exact ⟨h.1.append entry, hlength h.2.1, h.2.2.append entry⟩
  | sent n tail put => exact ⟨h.1.append entry, h.2.append entry⟩
  | returned version => exact AddsAll.append h entry
  | _ => trivial

theorem snapshotVersion_lt (h : TailSound plan log tail) (hlog : 0 < log.length) :
    snapshotVersion plan log tail < log.length := by
  unfold snapshotVersion
  split_ifs with hmanaged
  · exact h.listed hmanaged
  · unfold newest
    omega

theorem TailSound.freshTail (h : TailSound plan log tail) (hlog : 0 < log.length) :
    TailSound plan log (freshTail plan log tail) := by
  unfold Distributed.freshTail
  split_ifs with hfresh
  · refine ⟨fun hmanaged => ?_, fun _ => ?_, fun hstale => ?_⟩
    · have := h.resolved hmanaged
      have := h.listed hmanaged
      unfold newest
      omega
    · unfold newest
      omega
    · simp only [Bool.and_eq_true] at hfresh
      simp [Distributed.stale, hfresh.2] at hstale
  · exact h

variable {s : World}

theorem Sound.tailSound (h : Sound layoutStillFits plan fragments s) :
    TailSound plan s.log plan.tail := ⟨fun _ => le_rfl, h.tail, fun _ => rfl⟩

theorem Sound.buildVersion_lt (h : Sound layoutStillFits plan fragments s) {args : Args}
    (htail : TailSound plan s.log tail) : buildVersion plan args s.log tail < s.log.length := by
  unfold buildVersion pinned
  split_ifs
  · cases hversion : plan.version with
    | none => exact snapshotVersion_lt htail h.nonempty
    | some v => exact h.planned v hversion
  · exact snapshotVersion_lt htail h.nonempty

theorem Sound.addsAll (h : Sound layoutStillFits plan fragments s)
    (hadds : Adds fragments s.log v) :
    AddsAll fragments s.log v := by
  obtain ⟨e, he, path, hpath, hadds⟩ := hadds
  refine ⟨e, he, fun path' hpath' => ?_⟩
  rcases h.wholly e (mem_of_getElem? he) with hfiles | hnone
  · rw [hfiles]
    exact mem_dedup.mp hpath'
  · exact absurd hadds (hnone path hpath)

theorem Built.adds {put : Put} (h : Built layoutStillFits plan fragments log put)
    (hlanded : log[put.version]? = some put.entry) : AddsAll fragments log put.version := by
  refine ⟨put.entry, hlanded, fun path hpath => ?_⟩
  rw [adds_of_commitFiles h.made]
  exact mem_dedup.mp hpath

theorem Sound.extend (h : Sound layoutStillFits plan fragments s)
    (hentry : entry.adds = files fragments ∨ ∀ path ∈ fragmentPaths fragments, path ∉ entry.adds) :
    Sound layoutStillFits plan fragments { s with log := s.log ++ [entry] } := by
  have hlength : (s.log ++ [entry]).length = s.log.length + 1 := by simp
  refine ⟨?_, fun v hv => ?_, fun hmanaged => ?_, fun e he => ?_, ?_, ?_, fun put hput => ?_,
    fun i => ?_⟩
  · simp only [hlength]
    omega
  · have := h.planned v hv
    simp only [hlength]
    omega
  · have := h.tail hmanaged
    simp only [hlength]
    omega
  · rcases mem_append.mp he with he | he
    · exact h.wholly e he
    · rw [mem_singleton.mp he]
      exact hentry
  · have := h.before
    simp only [hlength]
    omega
  · exact h.unlanded.append h.before entry
  · exact (h.sent put hput).append entry
  · exact (h.calls i).append entry

theorem Sound.to (h : Sound layoutStillFits plan fragments s) {i : Nat}
    (hphase : PhaseSound layoutStillFits plan fragments s.log phase) :
    Sound layoutStillFits plan fragments (s.to i phase) := by
  refine ⟨h.nonempty, h.planned, h.tail, h.wholly, h.before, h.unlanded, h.sent, fun j => ?_⟩
  by_cases hj : j = i
  · subst hj
    simpa [World.to] using hphase
  · simpa [World.to, Function.update_of_ne hj] using h.calls j

theorem Sound.move (h : Sound layoutStillFits plan fragments s) {args : Args} {phase' : Phase}
    (hphase : PhaseSound layoutStillFits plan fragments s.log phase)
    (hmove : Move layoutStillFits plan fragments args s.log phase phase') :
    PhaseSound layoutStillFits plan fragments s.log phase' := by
  cases hmove with
  | refresh n tail => exact TailSound.freshTail hphase h.nonempty
  | absent n tail _ => exact ⟨hphase, snapshotVersion_lt hphase h.nonempty⟩
  | found n tail version hlanded => exact h.addsAll (adds_of_landedVersion hlanded)
  | moved _ _ _ _ => trivial
  | stayed n tail checked => exact hphase
  | changed _ _ _ _ _ => trivial
  | accepted n tail put hlanded => exact hphase.2.adds hlanded
  | conflict _ _ _ _ => trivial
  | retry n tail put => exact hphase.1
  | backfill n tail checked again put hcatalog =>
    refine ⟨⟨fun hmanaged => ?_, fun _ => ?_, fun hstale => ?_⟩, hphase.2.1⟩
    · have := h.tail hmanaged
      unfold newest
      omega
    · have := h.nonempty
      unfold newest
      omega
    · simp [stale, hcatalog] at hstale
  | abort _ => exact h.tailSound.freshTail h.nonempty
  | unlanded _ _ => trivial
  | raised _ _ => trivial

/-- Every step keeps the invariant. -/
theorem Sound.step {t : World} {e : Event} (h : Sound layoutStillFits plan fragments s)
    (hstep : Step layoutStillFits plan fragments s e t) :
    Sound layoutStillFits plan fragments t := by
  cases hstep with
  | write entry hother => exact h.extend (.inr hother)
  | land put hsent _ => exact h.extend (.inl (adds_of_commitFiles (h.sent put hsent).made))
  | start i args _ =>
    refine ⟨h.nonempty, h.planned, h.tail, h.wholly, h.before, h.unlanded, h.sent, fun j => ?_⟩
    by_cases hj : j = i
    · subst hj
      simpa [PhaseSound] using h.tailSound
    · simpa [Function.update_of_ne hj] using h.calls j
  | move e i phase _ hmove => exact h.to (h.move (h.calls i) hmove)
  | build i n tail checked again entry hphase hbuilt =>
    have hcall := h.calls i
    rw [hphase] at hcall
    have hversion : buildVersion plan (s.calls i).args s.log tail < s.log.length :=
      h.buildVersion_lt hcall.1
    exact h.to ⟨hcall.1, hcall.2, Nat.succ_pos _, hversion, hbuilt⟩
  | send i n tail checked again put hphase =>
    have hcall := h.calls i
    rw [hphase] at hcall
    have hto : Sound layoutStillFits plan fragments (s.to i (.sent n tail put)) :=
      h.to ⟨hcall.1, hcall.2.2⟩
    refine ⟨hto.nonempty, hto.planned, hto.tail, hto.wholly, hto.before, hto.unlanded, ?_,
      hto.calls⟩
    intro put' hput'
    rcases mem_cons.mp hput' with rfl | hput'
    · exact hcall.2.2
    · exact h.sent put' hput'
  | delete i _ =>
    have hto : Sound layoutStillFits plan fragments (s.to i .raised) := h.to trivial
    exact ⟨hto.nonempty, hto.planned, hto.tail, hto.wholly, hto.before, hto.unlanded, hto.sent,
      hto.calls⟩

theorem landedAfter_lt (h : Written plan fragments log) :
    landedAfter plan fragments < log.length := by
  have hnonempty : 0 < log.length := length_pos_iff.mpr h.nonempty
  unfold landedAfter
  cases hmin : ([fragmentWrittenAt fragments, plan.version].reduceOption).min? with
  | none => exact hnonempty
  | some v =>
    have hmem := List.min?_mem hmin
    rw [reduceOption_mem_iff, mem_cons, mem_singleton] at hmem
    rcases hmem with hwritten | hplanned
    · exact h.writtenAt v hwritten.symm
    · exact h.planned v hplanned.symm

theorem Written.sound (h : Written plan fragments log) :
    Sound layoutStillFits plan fragments (World.init log) := by
  refine ⟨length_pos_iff.mpr h.nonempty, h.planned, h.tail, fun e he => .inr (h.unlanded e he),
    landedAfter_lt h, ?_, fun put hput => ?_, fun i => trivial⟩
  · rintro v _ ⟨e, he, path, hpath, hadds⟩
    exact h.unlanded e (mem_of_getElem? he) path hpath hadds
  · cases hput

/-- Whatever the order of the steps, a version adds all the fragments' files or none of them, and
one that a call returns adds them all. -/
theorem commits_whole {ok : World → Event → Prop} (h : Written plan fragments log)
    (hrun : Run (next layoutStillFits plan fragments) ok (World.init log) s) :
    (∀ e ∈ s.log,
      e.adds = files fragments ∨ ∀ path ∈ fragmentPaths fragments, path ∉ e.adds) ∧
    ∀ i v, (s.calls i).phase = .returned v → AddsAll fragments s.log v := by
  have hsound : Sound layoutStillFits plan fragments s :=
    hrun.invariant h.sound fun _ _ _ hsound _ hnext => hsound.step (step_of_next hnext)
  refine ⟨hsound.wholly, ?_⟩
  intro i v hphase
  have hcall := hsound.calls i
  rw [hphase] at hcall
  exact hcall

end

/-- An append planned at version 0 of a table that is not catalog-managed. -/
def appendPlan : Plan := ⟨some 0, false, none, false, false, 0⟩

def oneFile : List Fragment := [⟨[['f']], none, some 0⟩]

def emptyTable : Log := [⟨[], [], [], none⟩]

def added : Put := ⟨1, ⟨[['f']], [], [], none⟩⟩

def appendNext : World → Event → Option World := next (fun a b => a == b) appendPlan oneFile

theorem written_append : Written appendPlan oneFile emptyTable := by
  refine ⟨by decide, by decide, by decide, ?_, ?_, by decide, by decide⟩
  · intro v hv
    cases hv
    decide
  · intro v hv
    have hv : some 0 = some v := hv
    cases hv
    decide

section
variable {layoutStillFits : Text → Text → Bool} {plan : Plan} {fragments : List Fragment}

instance decidableAdds (log : Log) (version : Nat) : Decidable (Adds fragments log version) :=
  decidable_of_iff (log[version]?.any fun e => (fragmentPaths fragments).any (· ∈ e.adds)) (by
    simp [Adds, Option.any_eq_true])

/-- A build on a snapshot whose versions past the checked one add none of the files. -/
def UnmissedBy (layoutStillFits : Text → Text → Bool) (plan : Plan) (fragments : List Fragment)
    (args : Args) (log : Log) : Phase → Prop
  | .resolve _ tail checked _ =>
    (commitFiles layoutStillFits plan fragments
      (snapshotAt log (buildVersion plan args log tail))).isOk = true →
    ∀ version ≤ buildVersion plan args log tail, checked < version → ¬ Adds fragments log version
  | _ => True

instance decidableUnmissedBy (args : Args) (log : Log) : (phase : Phase) →
    Decidable (UnmissedBy layoutStillFits plan fragments args log phase)
  | .resolve _ tail checked _ => inferInstanceAs (Decidable
      ((commitFiles layoutStillFits plan fragments
        (snapshotAt log (buildVersion plan args log tail))).isOk = true →
      ∀ version ≤ buildVersion plan args log tail, checked < version →
        ¬ Adds fragments log version))
  | .idle | .refresh _ _ | .check _ _ | .guard _ _ _ | .ready _ _ _ _ _ | .sent _ _ _ | .failed
  | .aborting _ | .deleting | .returned _ | .raised => inferInstanceAs (Decidable True)

/-- Where `commit_files` builds a commit, no version after the one the call's
landed check read adds the files. -/
def Unmissed (layoutStillFits : Text → Text → Bool) (plan : Plan) (fragments : List Fragment)
    (s : World) : Event → Prop
  | .go i => UnmissedBy layoutStillFits plan fragments (s.calls i).args s.log (s.calls i).phase
  | _ => True

instance decidableUnmissed (s : World) : (e : Event) →
    Decidable (Unmissed layoutStillFits plan fragments s e)
  | .go i => decidableUnmissedBy (s.calls i).args s.log (s.calls i).phase
  | .write _ | .land _ | .start _ _ | .cannotTell _ | .send _ | .answer _ _ | .delete _
  | .raise _ => inferInstanceAs (Decidable True)

def PhaseClear (fragments : List Fragment) (log : Log) : Phase → Prop
  | .guard _ _ checked | .resolve _ _ checked _ => Clear fragments log (checked + 1)
  | .ready _ _ checked _ put =>
    Clear fragments log (checked + 1) ∧ Clear fragments log put.version
  | .sent _ _ put => Clear fragments log put.version
  | _ => True

/-- A put can only land on a log that adds none of the files. -/
structure Once (fragments : List Fragment) (s : World) : Prop where
  atMostOnce : AtMostOnce fragments s.log
  sent : ∀ put ∈ s.sent, Clear fragments s.log put.version
  calls : ∀ i, PhaseClear fragments s.log (s.calls i).phase

variable {phase : Phase}

theorem PhaseClear.mono {log log' : Log}
    (hclear : ∀ bound, bound ≤ log.length → Clear fragments log bound → Clear fragments log' bound)
    (hsound : PhaseSound layoutStillFits plan fragments log phase)
    (h : PhaseClear fragments log phase) : PhaseClear fragments log' phase := by
  cases phase with
  | guard n tail checked => exact hclear _ hsound.2 h
  | resolve n tail checked again => exact hclear _ hsound.2 h
  | ready n tail checked again put =>
    exact ⟨hclear _ hsound.2.1 h.1, hclear _ hsound.2.2.placed h.2⟩
  | sent n tail put => exact hclear _ hsound.2.placed h
  | _ => trivial

variable {s : World}

theorem Once.to (h : Once fragments s) {i : Nat} (hphase : PhaseClear fragments s.log phase) :
    Once fragments (s.to i phase) := by
  refine ⟨h.atMostOnce, h.sent, fun j => ?_⟩
  by_cases hj : j = i
  · subst hj
    simpa [World.to] using hphase
  · simpa [World.to, Function.update_of_ne hj] using h.calls j

theorem Once.write (hs : Sound layoutStillFits plan fragments s) (h : Once fragments s)
    {entry : Entry} (hother : ∀ path ∈ fragmentPaths fragments, path ∉ entry.adds) :
    Once fragments { s with log := s.log ++ [entry] } := by
  have hold : ∀ {v}, Adds fragments (s.log ++ [entry]) v → Adds fragments s.log v := by
    intro v hv
    rcases hv.of_append with hv | ⟨_, path, hpath, hadds⟩
    · exact hv
    · exact absurd hadds (hother path hpath)
  refine ⟨fun v w hv hw => h.atMostOnce v w (hold hv) (hold hw), fun put hput => ?_, fun i => ?_⟩
  · exact (h.sent put hput).write hother
  · exact (h.calls i).mono (fun _ _ hclear => hclear.write hother) (hs.calls i)

theorem Once.land (hs : Sound layoutStillFits plan fragments s) (h : Once fragments s) {put : Put}
    (hput : put ∈ s.sent) (hfree : put.version = s.log.length) :
    Once fragments { s with log := s.log ++ [put.entry] } := by
  have hclear : Clear fragments s.log s.log.length := hfree ▸ h.sent put hput
  have hnew : ∀ {v}, Adds fragments (s.log ++ [put.entry]) v → v = s.log.length := by
    intro v hv
    rcases hv.of_append with hv | ⟨hlast, _⟩
    · exact absurd hv (hclear v hv.lt)
    · exact hlast
  refine ⟨fun v w hv hw => (hnew hv).trans (hnew hw).symm, fun put' hput' => ?_, fun i => ?_⟩
  · exact (h.sent put' hput').append (hs.sent put' hput').placed put.entry
  · exact (h.calls i).mono (fun _ hbound hold => hold.append hbound put.entry) (hs.calls i)

theorem Once.move (hs : Sound layoutStillFits plan fragments s)
    (hnamed : fragmentPaths fragments ≠ []) {args : Args} {phase' : Phase}
    (h : PhaseClear fragments s.log phase)
    (hmove : Move layoutStillFits plan fragments args s.log phase phase') :
    PhaseClear fragments s.log phase' := by
  cases hmove with
  | absent n tail hlanded => exact clear_of_landedVersion hnamed hs.unlanded hlanded
  | stayed n tail checked => exact h
  | backfill n tail checked again put _ => exact h.1
  | _ => trivial

theorem Once.step {t : World} {e : Event} (hs : Sound layoutStillFits plan fragments s)
    (hnamed : fragmentPaths fragments ≠ []) (h : Once fragments s)
    (hunmissed : Unmissed layoutStillFits plan fragments s e)
    (hstep : Step layoutStillFits plan fragments s e t) : Once fragments t := by
  cases hstep with
  | write entry hother => exact h.write hs hother
  | land put hsent hfree => exact h.land hs hsent hfree
  | start i args _ =>
    refine ⟨h.atMostOnce, h.sent, fun j => ?_⟩
    by_cases hj : j = i
    · subst hj
      simp [PhaseClear]
    · simpa [Function.update_of_ne hj] using h.calls j
  | move e i phase _ hmove => exact h.to (Once.move hs hnamed (h.calls i) hmove)
  | build i n tail checked again entry hphase hbuilt =>
    have hcall := h.calls i
    rw [hphase] at hcall
    simp only [Unmissed, hphase, UnmissedBy, hbuilt] at hunmissed
    refine h.to ⟨hcall, fun v hv => ?_⟩
    rcases Nat.lt_or_ge checked v with hpast | hbefore
    · exact hunmissed rfl v (Nat.lt_succ_iff.mp hv) hpast
    · exact hcall v (Nat.lt_succ_of_le hbefore)
  | send i n tail checked again put hphase =>
    have hcall := h.calls i
    rw [hphase] at hcall
    have hto : Once fragments (s.to i (.sent n tail put)) := h.to hcall.2
    refine ⟨hto.atMostOnce, fun put' hput' => ?_, hto.calls⟩
    rcases mem_cons.mp hput' with rfl | hput'
    · exact hcall.2
    · exact h.sent put' hput'
  | delete i _ =>
    have hto : Once fragments (s.to i .raised) := h.to trivial
    exact ⟨hto.atMostOnce, hto.sent, hto.calls⟩

theorem Written.once {log : Log} (h : Written plan fragments log) :
    Once fragments (World.init log) := by
  refine ⟨fun v w hv _ => ?_, fun put hput => ?_, fun i => trivial⟩
  · obtain ⟨e, he, path, hpath, hadds⟩ := hv
    exact absurd hadds (h.unlanded e (mem_of_getElem? he) path hpath)
  · cases hput

/-- In a run whose builds miss no landed version, at most one version adds the
fragments' files, and a version that a call returns adds all of them. -/
theorem commit_atMostOnce {log : Log} {s : World} (h : Written plan fragments log)
    (hrun : Run (next layoutStillFits plan fragments) (Unmissed layoutStillFits plan fragments)
      (World.init log) s) :
    AtMostOnce fragments s.log ∧
      ∀ i v, (s.calls i).phase = .returned v → AddsAll fragments s.log v := by
  have hboth : Sound layoutStillFits plan fragments s ∧ Once fragments s := by
    refine hrun.invariant (P := fun s => Sound layoutStillFits plan fragments s ∧ Once fragments s)
      ⟨h.sound, h.once⟩ fun s t e hs hunmissed hnext => ?_
    have hstep := step_of_next hnext
    exact ⟨hs.1.step hstep, hs.2.step hs.1 h.named hunmissed hstep⟩
  refine ⟨hboth.2.atMostOnce, fun i v hreturned => ?_⟩
  have hcall := hboth.1.calls i
  rw [hreturned] at hcall
  exact hcall

end

/-- A put that times out, lands, and is found by the second attempt. -/
def landsLate : List Event :=
  [.start 0 ⟨1, false, true⟩, .go 0, .go 0, .go 0, .go 0, .send 0, .answer 0 .transient,
    .land added,
    .go 0, .go 0]

theorem commit_atMostOnce_landsLate : ∃ s : World, (s.calls 0).phase = .returned 1 ∧
    AtMostOnce oneFile s.log ∧ AddsAll oneFile s.log 1 := by
  have hreplay : (replay appendNext (Unmissed (fun a b => a == b) appendPlan oneFile)
      (World.init emptyTable) landsLate).map (fun s => (s.calls 0).phase) = some (.returned 1) := by
    decide
  obtain ⟨s, hs, hphase⟩ := Option.map_eq_some_iff.mp hreplay
  obtain ⟨honce, hreturned⟩ := commit_atMostOnce written_append (Run.of_replay hs)
  exact ⟨s, hphase, honce, hreturned 0 1 hphase⟩

/-- A put that times out, and lands between the landed check of the next call
and the snapshot that call builds on. -/
def landsBetween : List Event :=
  [.start 0 ⟨0, false, true⟩, .go 0, .go 0, .go 0, .go 0, .send 0, .answer 0 .transient,
    .start 1 ⟨0, false, true⟩, .go 1, .go 1, .land added, .go 1, .go 1, .send 1,
    .land { added with version := 2 }, .answer 1 .accepted]

theorem lateLanding_commits_twice :
    ¬ ∀ (layoutStillFits : Text → Text → Bool) (plan : Plan) (fragments : List Fragment) (log : Log)
      (s : World), Written plan fragments log →
      Run (next layoutStillFits plan fragments) (fun _ _ => True) (World.init log) s →
      AtMostOnce fragments s.log := by
  intro h
  have hreplay : (replay appendNext (fun _ _ => True) (World.init emptyTable) landsBetween).map
      World.log = some (emptyTable ++ [added.entry, added.entry]) := by
    decide
  obtain ⟨s, hs, hlog⟩ := Option.map_eq_some_iff.mp hreplay
  have honce := h _ _ _ _ s written_append (Run.of_replay hs)
  rw [hlog] at honce
  have htwice := honce 1 2 (by decide) (by decide)
  cases htwice

theorem commits_whole_landsBetween : ∃ s : World,
    s.log = emptyTable ++ [added.entry, added.entry] ∧ ∀ e ∈ s.log,
      e.adds = files oneFile ∨ ∀ path ∈ fragmentPaths oneFile, path ∉ e.adds := by
  have hreplay : (replay appendNext (fun _ _ => True) (World.init emptyTable) landsBetween).map
      World.log = some (emptyTable ++ [added.entry, added.entry]) := by
    decide
  obtain ⟨s, hs, hlog⟩ := Option.map_eq_some_iff.mp hreplay
  exact ⟨s, hlog, (commits_whole written_append (Run.of_replay hs)).1⟩

end DeltaSwamp.Distributed
