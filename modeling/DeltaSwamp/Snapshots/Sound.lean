import DeltaSwamp.Snapshots.Calls

/-!
# What a kept snapshot proves

While the commit file whose identity was recorded is still in place, the log up
to it is the one the snapshot replays: what every step of every process keeps.
-/

namespace DeltaSwamp.Snapshots

open List

section
variable {Token : Type} {stores : Stores Token} {w w' : World Token} {place : Place}
  {commits : List CommitFile} {g : CommitFile}

/-- No file is yet to be written. -/
def Numbered (w : World Token) : Prop :=
  ∀ place, ∀ file ∈ w.storage place, file.written < w.writes

/-- While the file is where the commits end, the log up to it is these commits. -/
structure Vouched (w : World Token) (place : Place) (commits : List CommitFile) (g : CommitFile) :
    Prop where
  earlier : g.written < w.writes
  same : (w.storage place)[commits.length - 1]? = some g →
    (w.storage place).take commits.length = commits

theorem Vouched.congr (h : Vouched w place commits g) (hstorage : w'.storage = w.storage)
    (hwrites : w'.writes = w.writes) : Vouched w' place commits g :=
  ⟨hwrites ▸ h.earlier, hstorage ▸ h.same⟩

/-- At the moment a log is listed, any file written vouches for what the listing takes of it. -/
theorem Vouched.of_take {n : Nat} (hg : g.written < w.writes) (hn : n ≤ (w.storage place).length)
    (h : commits = (w.storage place).take n) : Vouched w place commits g := by
  refine ⟨hg, fun _ => ?_⟩
  have hlength : commits.length = n := by
    rw [h, length_take, Nat.min_eq_left hn]
  rw [hlength, h]

/-- A snapshot's recorded identity is that of a file that vouches for it. -/
def HeldSound (stores : Stores Token) (w : World Token) (place : Place) (held : Held Token) :
    Prop :=
  ∀ t, held.identity = some t →
    ∃ g, stores.identity place g = some t ∧ Vouched w place held.snapshot.commits g

/-- The commit file found in place, with the identity recorded: the log holds the commits. -/
theorem HeldSound.take_eq {held : Held Token} (hheld : HeldSound stores w place held)
    (hstrong : stores.Strong) {f : CommitFile} {t : Token} (ht : held.identity = some t)
    (hfound : (w.storage place)[held.snapshot.version]? = some f)
    (hidentity : stores.identity place f = some t) :
    (w.storage place).take held.snapshot.commits.length = held.snapshot.commits := by
  obtain ⟨g, hg, hvouched⟩ := hheld t ht
  have hfg : f = g := hstrong place f g t hidentity hg
  rw [hfg] at hfound
  exact hvouched.same hfound

/-- The commits on their way into a snapshot: their last file vouches for them, and so does the file
whose identity an update may carry over. -/
structure InFlight (stores : Stores Token) (w : World Token) (place : Place) (origin : Origin Token)
    (commits : List CommitFile) : Prop where
  own : ∀ g, commits.getLast? = some g → Vouched w place commits g
  existing : ∀ held, origin.existing = some held → ∀ t, held.identity = some t →
    ∃ g, stores.identity place g = some t ∧ Vouched w place commits g

theorem InFlight.of_take {origin : Origin Token} {n : Nat} (hw : Numbered w)
    (hheld : ∀ held, origin.existing = some held → HeldSound stores w place held)
    (hn : n ≤ (w.storage place).length) (h : commits = (w.storage place).take n) :
    InFlight stores w place origin commits where
  own g hg := by
    refine .of_take (hw place g ?_) hn h
    rw [h] at hg
    exact mem_of_mem_take (mem_of_getLast? hg)
  existing held hexisting t ht := by
    obtain ⟨g, hidentity, hvouched⟩ := hheld held hexisting t ht
    exact ⟨g, hidentity, .of_take hvouched.earlier hn h⟩

/-- The commits a build has read are the ones it listed. -/
structure ReadSound (listed read : List CommitFile) : Prop where
  more : read.length < listed.length
  same : read = listed.drop (listed.length - read.length)

/-- What is known of a call's snapshot, in each phase. -/
def Phase.Sound (stores : Stores Token) (w : World Token) (asked : Asked) : Phase Token → Prop
  | .checking held =>
    HeldSound stores w asked.place held ∧ asked.cacheable = true ∧ held.snapshot.commits ≠ [] ∧
      ∀ v, asked.version = some v → held.snapshot.commits.length = v + 1
  | .updating held =>
    HeldSound stores w asked.place held ∧ asked.cacheable = true ∧ held.snapshot.commits ≠ [] ∧
      asked.version = none ∧ held.identity ≠ none
  | .building origin =>
    ∀ held, origin.existing = some held → HeldSound stores w asked.place held
  | .reading origin base listed read =>
    (∀ held, origin.existing = some held → HeldSound stores w asked.place held) ∧
      InFlight stores w asked.place origin (base ++ listed) ∧ ReadSound listed read
  | .recording origin snapshot => InFlight stores w asked.place origin snapshot.commits
  | .remembering held => HeldSound stores w asked.place held
  | .ready | .returned _ | .failed => True

variable [DecidableEq Token] {e : Event}

theorem written_of_mem {first : Nat} {log : List (String × FileMeta)} {file : CommitFile}
    (h : file ∈ written first log) :
    first ≤ file.written ∧ file.written < first + log.length := by
  induction log generalizing first with
  | nil => cases h
  | cons entry log ih =>
    rw [length_cons]
    rcases mem_cons.mp h with heq | hmem
    · subst heq
      exact ⟨Nat.le_refl _, Nat.lt_add_of_pos_right (Nat.succ_pos _)⟩
    · have hrest := ih hmem
      omega

theorem storage_step (h : w.step stores e = some w') :
    (w'.storage = w.storage ∧ w'.writes = w.writes) ∨
      (∃ p content listing, e = .commit p content listing ∧
        w' = w.setLog p (w.storage p ++ [⟨content, listing, w.writes⟩]) 1) ∨
      ∃ p log, e = .replace p log ∧ w' = w.setLog p (written w.writes log) log.length := by
  cases e with
  | commit p content listing =>
    exact .inr (.inl ⟨p, content, listing, rfl, (Option.some.inj h).symm⟩)
  | replace p log => exact .inr (.inr ⟨p, log, rfl, (Option.some.inj h).symm⟩)
  | refreshTail location tableId tail =>
    rw [← Option.some.inj h]
    exact .inl ⟨rfl, rfl⟩
  | forget location =>
    rw [← Option.some.inj h]
    exact .inl ⟨rfl, rfl⟩
  | start id asked =>
    cases hcall : w.calls id with
    | some call => simp [World.step, hcall] at h
    | none =>
      simp only [World.step, hcall, Option.some.injEq] at h
      rw [← h]
      exact .inl ⟨rfl, rfl⟩
  | act id =>
    obtain ⟨call, -, h⟩ := Option.bind_eq_some_iff.mp h
    obtain ⟨phase, -, h⟩ := Option.bind_eq_some_iff.mp h
    rw [← Option.some.inj h]
    exact .inl ⟨rfl, rfl⟩
  | fail id =>
    obtain ⟨call, -, h⟩ := Option.bind_eq_some_iff.mp h
    obtain ⟨phase, -, h⟩ := Option.bind_eq_some_iff.mp h
    rw [← Option.some.inj h]
    exact .inl ⟨rfl, rfl⟩
  | retry id =>
    obtain ⟨call, -, h⟩ := Option.bind_eq_some_iff.mp h
    split_ifs at h with hfailed
    rw [← Option.some.inj h]
    exact .inl ⟨rfl, rfl⟩

theorem numbered_step (hw : Numbered w) (h : w.step stores e = some w') : Numbered w' := by
  rcases storage_step h with ⟨hstorage, hwrites⟩ | ⟨p, content, listing, -, rfl⟩ | ⟨p, log, -, rfl⟩
  · unfold Numbered
    rw [hstorage, hwrites]
    exact hw
  · intro place file hfile
    simp only [World.setLog] at hfile ⊢
    split_ifs at hfile with hplace
    · rcases mem_append.mp hfile with hold | hnew
      · exact Nat.lt_succ_of_lt (hw p file hold)
      · rw [mem_singleton.mp hnew]
        exact Nat.lt_succ_self _
    · exact Nat.lt_succ_of_lt (hw place file hfile)
  · intro place file hfile
    simp only [World.setLog] at hfile ⊢
    split_ifs at hfile with hplace
    · exact (written_of_mem hfile).2
    · exact Nat.lt_of_lt_of_le (hw place file hfile) (Nat.le_add_right _ _)

theorem Vouched.step (hv : Vouched w place commits g) (h : w.step stores e = some w') :
    Vouched w' place commits g := by
  rcases storage_step h with ⟨hstorage, hwrites⟩ | ⟨p, content, listing, -, rfl⟩ | ⟨p, log, -, rfl⟩
  · exact hv.congr hstorage hwrites
  · refine ⟨Nat.lt_succ_of_lt hv.earlier, fun hlast => ?_⟩
    simp only [World.setLog] at hlast ⊢
    split_ifs at hlast ⊢ with hplace
    · subst hplace
      by_cases hlt : commits.length - 1 < (w.storage place).length
      · rw [List.getElem?_append_left hlt] at hlast
        rw [take_append_of_le_length (by omega)]
        exact hv.same hlast
      · have hmem := mem_of_getElem? ((List.getElem?_append_right (by omega)).symm.trans hlast)
        rw [mem_singleton] at hmem
        have hearlier := hv.earlier
        rw [hmem] at hearlier
        exact absurd hearlier (Nat.lt_irrefl _)
    · exact hv.same hlast
  · refine ⟨Nat.lt_of_lt_of_le hv.earlier (Nat.le_add_right _ _), fun hlast => ?_⟩
    simp only [World.setLog] at hlast ⊢
    split_ifs at hlast ⊢ with hplace
    · have hwritten := (written_of_mem (mem_of_getElem? hlast)).1
      exact absurd hv.earlier (by omega)
    · exact hv.same hlast

theorem HeldSound.step {held : Held Token} (hheld : HeldSound stores w place held)
    (h : w.step stores e = some w') : HeldSound stores w' place held := by
  intro t ht
  obtain ⟨g, hidentity, hvouched⟩ := hheld t ht
  exact ⟨g, hidentity, hvouched.step h⟩

theorem InFlight.step {origin : Origin Token} (hin : InFlight stores w place origin commits)
    (h : w.step stores e = some w') : InFlight stores w' place origin commits where
  own g hg := (hin.own g hg).step h
  existing held hheld t ht := by
    obtain ⟨g, hidentity, hvouched⟩ := hin.existing held hheld t ht
    exact ⟨g, hidentity, hvouched.step h⟩

theorem Phase.Sound.step {asked : Asked} {phase : Phase Token} (hp : phase.Sound stores w asked)
    (h : w.step stores e = some w') : phase.Sound stores w' asked := by
  cases phase with
  | checking held | updating held => exact ⟨hp.1.step h, hp.2⟩
  | building origin => exact fun held hheld => (hp held hheld).step h
  | reading origin base listed read =>
    exact ⟨fun held hheld => (hp.1 held hheld).step h, hp.2.1.step h, hp.2.2⟩
  | recording origin snapshot => exact InFlight.step hp h
  | remembering held => exact HeldSound.step hp h
  | ready | returned | failed => trivial

/-- No re-created table comes between two requests of a call that rely on one another: the commit
file the check saw is still there at the listing, each commit listed is still there when it is read,
and no other file of the size and time listed when the identity is read. -/
def Phase.steady (stores : Stores Token) (asked : Asked) (log : List CommitFile) :
    Phase Token → Bool
  | .updating held =>
    log[held.snapshot.version]?.all fun file =>
      decide (stores.identity asked.place file = held.identity)
  | .reading _ base listed read =>
    log[nextRead base listed read]?.all fun file =>
      decide (listed[nextRead base listed read - base.length]? = some file)
  | .recording origin snapshot =>
    log[snapshot.version]?.all fun file =>
      !origin.records asked snapshot ||
        !stores.unchanged asked.place snapshot.latestCommitFile file.listing ||
        decide (snapshot.commits.getLast? = some file)
  | _ => true

end

section
variable {Token : Type} {asked : Asked} {commits : List CommitFile} {log : List CommitFile}
  {n : Nat}

theorem ends_le {version ratified : Option Nat} (h : ends version ratified log = some n) :
    0 < n ∧ n ≤ log.length := by
  unfold ends at h
  cases version with
  | some v =>
    dsimp only at h
    split_ifs at h with hv
    have hn := Option.some.inj h
    omega
  | none =>
    cases ratified with
    | some m =>
      dsimp only at h
      split_ifs at h with hm
      have hn := Option.some.inj h
      omega
    | none =>
      dsimp only at h
      split_ifs at h with hempty
      have hn := Option.some.inj h
      omega

theorem ends_version {ratified : Option Nat} {v : Nat} (h : ends (some v) ratified log = some n) :
    n = v + 1 := by
  unfold ends at h
  dsimp only at h
  split_ifs at h
  exact (Option.some.inj h).symm

/-- The commits are those a build reads of the log at the place, as it stands. -/
def AsOf (asked : Asked) (commits : List CommitFile) (w : World Token) : Prop :=
  ∃ n, ends asked.version asked.tail.maxCatalogVersion (w.storage asked.place) = some n ∧
    commits = (w.storage asked.place).take n

theorem AsOf.length {w : World Token} (h : AsOf asked commits w) :
    commits ≠ [] ∧ commits.length ≤ (w.storage asked.place).length ∧
      ∀ v, asked.version = some v → commits.length = v + 1 := by
  obtain ⟨n, hends, hcommits⟩ := h
  obtain ⟨hpos, hle⟩ := ends_le hends
  have hlength : commits.length = n := by
    rw [hcommits, length_take, Nat.min_eq_left hle]
  refine ⟨ne_nil_of_length_pos (by omega), by omega, fun v hv => ?_⟩
  rw [hv] at hends
  rw [hlength, ends_version hends]

theorem AsOf.of_latest {w : World Token} (hcacheable : asked.cacheable = true)
    (hversion : asked.version = none) (hlog : w.storage asked.place ≠ []) :
    AsOf asked (w.storage asked.place) w := by
  simp only [Asked.cacheable, Bool.and_eq_true, decide_eq_true_eq] at hcacheable
  refine ⟨(w.storage asked.place).length, ?_, (take_length).symm⟩
  rw [hversion, hcacheable.2]
  exact if_neg fun hempty => hlog (eq_nil_of_length_eq_zero hempty)

variable {stores : Stores Token} {w : World Token}

/-- The commits a call has settled on, once it has listed them. -/
def Phase.target : Phase Token → Option (List CommitFile)
  | .reading _ base listed _ => some (base ++ listed)
  | .recording _ snapshot | .returned snapshot => some snapshot.commits
  | .remembering held => some held.snapshot.commits
  | _ => none

theorem failBuild_sound {origin : Origin Token}
    (h : ∀ held, origin.existing = some held → HeldSound stores w asked.place held) :
    (failBuild origin).Sound stores w asked ∧ (failBuild origin).target = none := by
  cases origin with
  | incremental held =>
    exact ⟨fun held' hheld => h held' hheld, rfl⟩
  | afresh held | refreshed =>
    refine ⟨fun held' hheld => ?_, rfl⟩
    cases hheld
  | resolved => exact ⟨trivial, rfl⟩

theorem commitIdentity_eq_some {place : Place} {snapshot : Snapshot} {t : Token}
    (h : commitIdentity stores place log snapshot = some t) :
    ∃ file, log[snapshot.version]? = some file ∧ stores.identity place file = some t ∧
      stores.unchanged place snapshot.latestCommitFile file.listing = true := by
  unfold commitIdentity at h
  cases hfile : log[snapshot.version]? with
  | none =>
    rw [hfile] at h
    cases h
  | some file =>
    rw [hfile] at h
    dsimp only at h
    split_ifs at h with hunchanged
    exact ⟨file, rfl, h, hunchanged⟩

theorem updated_eq {held : Held Token}
    (htake : log.take held.snapshot.commits.length = held.snapshot.commits) :
    held.snapshot.commits ++ log.drop held.snapshot.commits.length = log := by
  conv_lhs => rw [← htake]
  rw [length_take]
  by_cases hle : held.snapshot.commits.length ≤ log.length
  · rw [Nat.min_eq_left hle]
    exact take_append_drop _ _
  · rw [Nat.min_eq_right (by omega), take_of_length_le (by omega), drop_length,
      append_nil]

variable [DecidableEq Token] {ok : World Token → Event → Prop} {start w' : World Token} {e : Event}

/-- The commits are those of one moment between the start and now. -/
def Dated (stores : Stores Token) (ok : World Token → Event → Prop) (start w : World Token)
    (asked : Asked) (commits : List CommitFile) : Prop :=
  ∃ m, Run (World.step stores) ok start m ∧ Run (World.step stores) ok m w ∧ AsOf asked commits m

theorem Dated.now (hrun : Run (World.step stores) ok start w) (h : AsOf asked commits w) :
    Dated stores ok start w asked commits := ⟨w, hrun, .refl, h⟩

theorem Dated.step (h : Dated stores ok start w asked commits) (hok : ok w e)
    (hstep : w.step stores e = some w') : Dated stores ok start w' asked commits := by
  obtain ⟨m, hbefore, hafter, hasof⟩ := h
  exact ⟨m, hbefore, hafter.step hok hstep, hasof⟩

theorem readOne_eq {base listed read : List CommitFile} (hread : ReadSound listed read)
    {file : CommitFile} (hfile : listed[nextRead base listed read - base.length]? = some file) :
    file :: read = listed.drop (listed.length - (read.length + 1)) := by
  have hmore := hread.more
  have hindex : nextRead base listed read - base.length = listed.length - (read.length + 1) := by
    unfold nextRead
    omega
  rw [hindex] at hfile
  obtain ⟨hlt, hget⟩ := List.getElem?_eq_some_iff.mp hfile
  rw [drop_eq_getElem_cons hlt, hget]
  congr 1
  rw [show listed.length - (read.length + 1) + 1 = listed.length - read.length by omega]
  exact hread.same

theorem updating_take {held : Held Token} (hstrong : stores.Strong)
    (hp : (Phase.updating held).Sound stores w asked)
    (hsteady : (Phase.updating held).steady stores asked (w.storage asked.place) = true)
    (hlength : held.snapshot.commits.length ≤ (w.storage asked.place).length) :
    (w.storage asked.place).take held.snapshot.commits.length = held.snapshot.commits := by
  obtain ⟨hheld, -, hne, -, hidentity⟩ := hp
  obtain ⟨t, ht⟩ := Option.ne_none_iff_exists'.mp hidentity
  have hlt : held.snapshot.version < (w.storage asked.place).length := by
    have hpos := length_pos_iff.mpr hne
    unfold Snapshot.version
    omega
  have hfound := List.getElem?_eq_getElem hlt
  simp only [Phase.steady, hfound, Option.all_some, decide_eq_true_eq] at hsteady
  exact hheld.take_eq hstrong ht hfound (hsteady.trans ht)

/-- A call goes on soundly. -/
theorem Phase.Sound.next {phase phase' : Phase Token} {cached : Option (Held Token)}
    (hw : Numbered w) (hstrong : stores.Strong)
    (hcached : ∀ held, cached = some held → asked.cacheable = true →
      (Phase.checking held).Sound stores w asked)
    (hp : phase.Sound stores w asked)
    (hsteady : phase.steady stores asked (w.storage asked.place) = true)
    (hnext : phase.next stores asked (w.storage asked.place) cached = some phase') :
    phase'.Sound stores w asked := by
  cases phase with
  | ready =>
    cases cached with
    | none =>
      cases hnext
      exact fun held hheld => by cases hheld
    | some held =>
      simp only [Phase.next] at hnext
      split_ifs at hnext with hhit hreuse
      · cases hnext
        trivial
      · cases hnext
        rw [Asked.reuse, Bool.and_eq_true] at hreuse
        exact hcached held rfl hreuse.1
      · cases hnext
        exact fun held hheld => by cases hheld
  | checking held =>
    simp only [Phase.next] at hnext
    split_ifs at hnext with hnone hsame hversion
    · cases hnext
      exact fun held hheld => by cases hheld
    · cases hnext
      exact hp.1
    · cases hnext
      exact ⟨hp.1, hp.2.1, hp.2.2.1, Option.not_isSome_iff_eq_none.mp hversion, hnone⟩
    · cases hnext
      exact fun held hheld => by cases hheld
  | updating held =>
    simp only [Phase.next] at hnext
    split_ifs at hnext with hshorter hequal
    · cases hnext
      intro held' hheld
      cases hheld
      exact hp.1
    · cases hnext
      exact hp.1
    · cases hnext
      have htake := updating_take hstrong hp hsteady (by omega)
      have hexisting : ∀ held', (Origin.incremental held).existing = some held' →
          HeldSound stores w asked.place held' := by
        intro held' hheld
        cases hheld
        exact hp.1
      refine ⟨hexisting, .of_take hw hexisting (Nat.le_refl _) ?_, ?_, ?_⟩
      · rw [updated_eq htake, take_length]
      · rw [length_drop, length_nil]
        omega
      · rw [length_nil, Nat.sub_zero, drop_length]
  | building origin =>
    simp only [Phase.next, Option.some.injEq] at hnext
    cases hends : ends asked.version asked.tail.maxCatalogVersion (w.storage asked.place) with
    | none =>
      rw [hends] at hnext
      rw [← hnext]
      exact (failBuild_sound hp).1
    | some n =>
      rw [hends] at hnext
      rw [← hnext]
      obtain ⟨hpos, hle⟩ := ends_le hends
      refine ⟨hp, .of_take hw hp hle rfl, ?_, ?_⟩
      · rw [length_take, length_nil]
        omega
      · rw [length_nil, Nat.sub_zero, drop_length]
  | reading origin base listed read =>
    obtain ⟨hexisting, hin, hread⟩ := hp
    simp only [Phase.next, Option.some.injEq] at hnext
    cases hfile : (w.storage asked.place)[nextRead base listed read]? with
    | none =>
      rw [hfile] at hnext
      rw [← hnext]
      exact (failBuild_sound hexisting).1
    | some file =>
      simp only [Phase.steady, hfile, Option.all_some, decide_eq_true_eq] at hsteady
      have heq := readOne_eq hread hsteady
      rw [hfile, readOne] at hnext
      split_ifs at hnext with hmore
      · rw [← hnext]
        exact ⟨hexisting, hin, hmore, heq⟩
      · rw [← hnext]
        have hdone : file :: read = listed := by
          rw [heq, show listed.length - (read.length + 1) = 0 by omega, drop_zero]
        show InFlight stores w asked.place origin (base ++ file :: read)
        rw [hdone]
        exact hin
  | recording origin snapshot =>
    cases hnext
    intro t ht
    simp only [Origin.recorded] at ht
    split_ifs at ht with hrecords
    · obtain ⟨file, hfound, hidentity, hunchanged⟩ := commitIdentity_eq_some ht
      simp only [Phase.steady, hfound, Option.all_some, hrecords, hunchanged, Bool.not_true,
        Bool.false_or, decide_eq_true_eq] at hsteady
      exact ⟨file, hidentity, hp.own file hsteady⟩
    · obtain ⟨held, hexisting, hidentity⟩ := Option.bind_eq_some_iff.mp ht
      exact hp.existing held hexisting t hidentity
  | remembering held =>
    cases hnext
    trivial
  | returned | failed => cases hnext

/-- What a call goes on to are the commits of one moment of the run. -/
theorem dated_next {phase phase' : Phase Token} {cached : Option (Held Token)}
    (hstrong : stores.Strong)
    (hp : phase.Sound stores w asked)
    (hsteady : phase.steady stores asked (w.storage asked.place) = true)
    (hrun : Run (World.step stores) ok start w)
    (hhit : ∀ held, cached = some held → asked.byTail = true → asked.fresh = false →
      Dated stores ok start w asked held.snapshot.commits)
    (hdated : ∀ target, phase.target = some target → Dated stores ok start w asked target)
    (hnext : phase.next stores asked (w.storage asked.place) cached = some phase')
    {target : List CommitFile} (htarget : phase'.target = some target) :
    Dated stores ok start w asked target := by
  cases phase with
  | ready =>
    cases cached with
    | none =>
      cases hnext
      cases htarget
    | some held =>
      simp only [Phase.next] at hnext
      split_ifs at hnext with hfound hreuse
      · cases hnext
        cases htarget
        rw [Bool.and_eq_true, Bool.not_eq_true'] at hfound
        exact hhit held rfl hfound.1 hfound.2
      · cases hnext
        cases htarget
      · cases hnext
        cases htarget
  | checking held =>
    simp only [Phase.next] at hnext
    split_ifs at hnext with hnone hsame hversion
    · cases hnext
      cases htarget
    · cases hnext
      cases htarget
      obtain ⟨t, ht⟩ := Option.ne_none_iff_exists'.mp hnone
      obtain ⟨v, hv⟩ := Option.isSome_iff_exists.mp hversion
      obtain ⟨hheld, hcacheable, -, hlength⟩ := hp
      obtain ⟨file, hfound, hidentity, -⟩ := commitIdentity_eq_some (hsame.trans ht)
      have htake := hheld.take_eq hstrong ht hfound hidentity
      have hlt := (List.getElem?_eq_some_iff.mp hfound).1
      simp only [Asked.cacheable, Bool.and_eq_true, decide_eq_true_eq] at hcacheable
      rw [Snapshot.version, hlength v hv, Nat.add_sub_cancel] at hlt
      refine .now hrun ⟨v + 1, ?_, by rw [← hlength v hv, htake]⟩
      rw [hv, hcacheable.2]
      exact if_pos ⟨hlt, Nat.le_refl _⟩
    · cases hnext
      cases htarget
    · cases hnext
      cases htarget
  | updating held =>
    have hupdated := hp
    obtain ⟨-, hcacheable, hne, hversion, -⟩ := hupdated
    simp only [Phase.next] at hnext
    split_ifs at hnext with hshorter hequal
    · cases hnext
      cases htarget
    · cases hnext
      cases htarget
      have htake := updating_take hstrong hp hsteady (by omega)
      rw [← hequal, take_length] at htake
      rw [← htake]
      exact .now hrun (.of_latest hcacheable hversion (by rw [htake]; exact hne))
    · cases hnext
      cases htarget
      rw [updated_eq (updating_take hstrong hp hsteady (by omega))]
      refine .now hrun (.of_latest hcacheable hversion fun hempty => ?_)
      rw [hempty, length_nil] at hshorter
      exact hne (eq_nil_of_length_eq_zero (by omega))
  | building origin =>
    simp only [Phase.next, Option.some.injEq] at hnext
    cases hends : ends asked.version asked.tail.maxCatalogVersion (w.storage asked.place) with
    | none =>
      rw [hends] at hnext
      rw [← hnext, list, (failBuild_sound hp).2] at htarget
      cases htarget
    | some n =>
      rw [hends] at hnext
      rw [← hnext] at htarget
      cases htarget
      exact .now hrun ⟨n, hends, rfl⟩
  | reading origin base listed read =>
    obtain ⟨hexisting, hin, hread⟩ := hp
    simp only [Phase.next, Option.some.injEq] at hnext
    cases hfile : (w.storage asked.place)[nextRead base listed read]? with
    | none =>
      rw [hfile] at hnext
      rw [← hnext, readOne, (failBuild_sound hexisting).2] at htarget
      cases htarget
    | some file =>
      simp only [Phase.steady, hfile, Option.all_some, decide_eq_true_eq] at hsteady
      have heq := readOne_eq hread hsteady
      rw [hfile, readOne] at hnext
      split_ifs at hnext with hmore
      · rw [← hnext] at htarget
        exact hdated target htarget
      · rw [← hnext] at htarget
        have hdone : file :: read = listed := by
          rw [heq, show listed.length - (read.length + 1) = 0 by omega, drop_zero]
        rw [hdone] at htarget
        exact hdated target htarget
  | recording origin snapshot =>
    cases hnext
    exact hdated target htarget
  | remembering held =>
    cases hnext
    exact hdated target htarget
  | returned | failed => cases hnext

end

end DeltaSwamp.Snapshots
