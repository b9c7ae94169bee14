import DeltaSwamp.Snapshots.Sound

/-!
# What a call returns

Every interleaving of a process's snapshot calls with other writers: what is
kept and what is returned is the log of one moment, and the latest version a
call returns does not go back.
-/

namespace DeltaSwamp.Snapshots

open List

section
variable {Token : Type} {stores : Stores Token} {w w' : World Token} {id : Nat} {asked : Asked}

variable {call call' : Call Token}

theorem setCall_calls {i : Nat} (h : (w.setCall i call).calls id = some call') :
    (id = i ∧ call' = call) ∨ (id ≠ i ∧ w.calls id = some call') := by
  simp only [World.setCall] at h
  split_ifs at h with hid
  · exact .inl ⟨hid, (Option.some.inj h).symm⟩
  · exact .inr ⟨hid, h⟩

theorem mem_keep {κ β : Type} [DecidableEq κ] {size : Nat} {cache : Dict κ β} {key : κ} {value : β}
    {entry : κ × β} (h : entry ∈ keep size cache key value) :
    entry = (key, value) ∨ entry ∈ cache := by
  rcases mem_append.mp (mem_of_mem_drop h) with hold | hnew
  · exact .inr (mem_filter.mp hold).1
  · exact .inl (mem_singleton.mp hnew)

theorem mem_leaves {phase : Phase Token} {cache : Dict Key (Held Token)} {entry : Key × Held Token}
    (h : entry ∈ phase.leaves asked cache) :
    entry ∈ cache ∨ (asked.cacheable = true ∨ asked.byTail = true) ∧
      phase = .remembering entry.2 ∧ entry.1 = asked.key := by
  cases phase with
  | ready =>
    left
    simp only [Phase.leaves] at h
    cases hget : cache.get asked.key with
    | none =>
      rw [hget] at h
      exact h
    | some held =>
      rw [hget] at h
      dsimp only at h
      split_ifs at h
      · rcases mem_append.mp h with hold | hnew
        · exact (mem_filter.mp hold).1
        · rw [mem_singleton.mp hnew]
          exact Dict.mem_of_get hget
      · exact h
  | remembering held =>
    simp only [Phase.leaves, remember] at h
    split_ifs at h with hcacheable hnone htail
    · exact .inl (mem_filter.mp h).1
    · rcases mem_keep h with rfl | hold
      · exact .inr ⟨.inl hcacheable, rfl, rfl⟩
      · exact .inl hold
    · rcases mem_keep h with rfl | hold
      · exact .inr ⟨.inr htail, rfl, rfl⟩
      · exact .inl hold
    · exact .inl h
  | checking | updating | building | reading | recording | returned | failed => exact .inl h

theorem asOf_of_key {asked asked' : Asked} {commits : List CommitFile} {m : World Token}
    (hkey : asked.key = asked'.key) (hkept : asked.cacheable = true ∨ asked.byTail = true)
    (hkept' : asked'.cacheable = true ∨ asked'.byTail = true) (h : AsOf asked commits m) :
    AsOf asked' commits m := by
  have hratified : ∀ a : Asked, a.cacheable = true ∨ a.byTail = true →
      a.tail.maxCatalogVersion = a.key.tail.bind Tail.maxCatalogVersion := by
    intro a ha
    cases htail : a.byTail with
    | true => simp [Asked.key, htail]
    | false =>
      rw [htail] at ha
      have hcacheable := ha.resolve_right Bool.false_ne_true
      simp only [Asked.cacheable, Bool.and_eq_true, decide_eq_true_eq] at hcacheable
      simp [Asked.key, htail, hcacheable.2]
  have hplace : asked.place = asked'.place := congrArg Key.place hkey
  have hversion : asked.version = asked'.version := congrArg Key.version hkey
  obtain ⟨n, hends, hcommits⟩ := h
  rw [hratified asked hkept, hkey, ← hratified asked' hkept', hplace, hversion] at hends
  exact ⟨n, hends, hplace ▸ hcommits⟩

theorem fails_sound {phase phase' : Phase Token} (hp : phase.Sound stores w asked)
    (h : phase.fails = some phase') :
    phase'.Sound stores w asked ∧ ∀ target, phase'.target = some target →
      phase.target = some target := by
  cases phase with
  | checking held =>
    cases h
    refine ⟨fun held' hheld => ?_, fun target htarget => ?_⟩
    · cases hheld
    · cases htarget
  | updating held =>
    cases h
    refine ⟨fun held' hheld => ?_, fun target htarget => ?_⟩
    · cases hheld
      exact hp.1
    · cases htarget
  | building origin =>
    cases h
    obtain ⟨hsound, hnone⟩ := failBuild_sound hp
    refine ⟨hsound, fun target htarget => ?_⟩
    rw [hnone] at htarget
    cases htarget
  | reading origin base listed read =>
    cases h
    obtain ⟨hsound, hnone⟩ := failBuild_sound hp.1
    refine ⟨hsound, fun target htarget => ?_⟩
    rw [hnone] at htarget
    cases htarget
  | recording origin snapshot =>
    cases h
    refine ⟨fun t ht => ?_, fun target htarget => htarget⟩
    cases ht
  | ready | remembering | returned | failed => cases h

variable [DecidableEq Token] {ok : World Token → Event → Prop} {start : World Token} {e : Event}

/-- How a call came to be as it is after a step. -/
inductive Came (stores : Stores Token) (w : World Token) (e : Event) (id : Nat)
    (call' : Call Token) : Prop where
  | same (hcall : w.calls id = some call')
  | started (hcall : w.calls id = none) (hphase : call'.phase = .ready)
  | acted (call : Call Token) (phase : Phase Token) (hcall : w.calls id = some call)
      (he : e = .act id)
      (hnext : call.phase.next stores call.asked (w.storage call.asked.place)
        (w.snapshots.get call.asked.key) = some phase)
      (heq : call' = { call with phase := phase })
  | failed (call : Call Token) (phase : Phase Token) (hcall : w.calls id = some call)
      (hfails : call.phase.fails = some phase) (heq : call' = { call with phase := phase })
  | retried (call : Call Token) (hcall : w.calls id = some call)
      (heq : call' = ⟨call.asked, .ready, true⟩)

theorem calls_step (h : w.step stores e = some w') (hcall' : w'.calls id = some call') :
    Came stores w e id call' := by
  cases e with
  | commit p content listing | replace p log | refreshTail location tableId tail
    | forget location =>
    rw [← Option.some.inj h] at hcall'
    exact .same hcall'
  | start i asked =>
    cases hcall : w.calls i with
    | some call => simp [World.step, hcall] at h
    | none =>
      simp only [World.step, hcall, Option.some.injEq] at h
      rw [← h] at hcall'
      rcases setCall_calls hcall' with ⟨rfl, rfl⟩ | ⟨-, hsame⟩
      · exact .started hcall rfl
      · exact .same hsame
  | act i =>
    obtain ⟨call, hcall, h⟩ := Option.bind_eq_some_iff.mp h
    obtain ⟨phase, hnext, h⟩ := Option.bind_eq_some_iff.mp h
    rw [← Option.some.inj h] at hcall'
    rcases setCall_calls (w := w) hcall' with ⟨rfl, rfl⟩ | ⟨-, hsame⟩
    · exact .acted call phase hcall rfl hnext rfl
    · exact .same hsame
  | fail i =>
    obtain ⟨call, hcall, h⟩ := Option.bind_eq_some_iff.mp h
    obtain ⟨phase, hfails, h⟩ := Option.bind_eq_some_iff.mp h
    rw [← Option.some.inj h] at hcall'
    rcases setCall_calls hcall' with ⟨rfl, rfl⟩ | ⟨-, hsame⟩
    · exact .failed call phase hcall hfails rfl
    · exact .same hsame
  | retry i =>
    obtain ⟨call, hcall, h⟩ := Option.bind_eq_some_iff.mp h
    split_ifs at h with hfailed
    rw [← Option.some.inj h] at hcall'
    rcases setCall_calls hcall' with ⟨rfl, rfl⟩ | ⟨-, hsame⟩
    · exact .retried call hcall rfl
    · exact .same hsame

theorem snapshots_step (h : w.step stores e = some w') {entry : Key × Held Token}
    (hentry : entry ∈ w'.snapshots) :
    entry ∈ w.snapshots ∨ ∃ id call, w.calls id = some call ∧
      (call.asked.cacheable = true ∨ call.asked.byTail = true) ∧
      call.phase = .remembering entry.2 ∧ entry.1 = call.asked.key := by
  cases e with
  | commit p content listing | replace p log | refreshTail location tableId tail =>
    rw [← Option.some.inj h] at hentry
    exact .inl hentry
  | forget location =>
    rw [← Option.some.inj h] at hentry
    exact .inl (mem_filter.mp hentry).1
  | start i asked =>
    cases hcall : w.calls i with
    | some call => simp [World.step, hcall] at h
    | none =>
      simp only [World.step, hcall, Option.some.injEq] at h
      rw [← h] at hentry
      exact .inl hentry
  | act i =>
    obtain ⟨call, hcall, h⟩ := Option.bind_eq_some_iff.mp h
    obtain ⟨phase, -, h⟩ := Option.bind_eq_some_iff.mp h
    rw [← Option.some.inj h] at hentry
    exact (mem_leaves hentry).imp_right fun hnew => ⟨i, call, hcall, hnew⟩
  | fail i =>
    obtain ⟨call, -, h⟩ := Option.bind_eq_some_iff.mp h
    obtain ⟨phase, -, h⟩ := Option.bind_eq_some_iff.mp h
    rw [← Option.some.inj h] at hentry
    exact .inl hentry
  | retry i =>
    obtain ⟨call, -, h⟩ := Option.bind_eq_some_iff.mp h
    split_ifs at h with hfailed
    rw [← Option.some.inj h] at hentry
    exact .inl hentry

/-- A step in which no re-created table comes between two requests of a call. -/
def Steady (stores : Stores Token) (w : World Token) : Event → Prop
  | .act id => ∀ call ∈ w.calls id,
      call.phase.steady stores call.asked (w.storage call.asked.place) = true
  | _ => True

instance : ∀ e, Decidable (Steady stores w e)
  | .act _ => inferInstanceAs (Decidable (∀ _ ∈ _, _))
  | .commit .. | .replace .. | .refreshTail .. | .forget _ | .start .. | .fail _ | .retry _ =>
    inferInstanceAs (Decidable True)

theorem Came.asks (hcame : Came stores w e id call') (hcall : w.calls id = some call) :
    call'.asked = call.asked := by
  cases hcame with
  | started hnone _ =>
    rw [hcall] at hnone
    cases hnone
  | same hcall' =>
    rw [hcall] at hcall'
    cases hcall'
    rfl
  | acted call₁ phase hcall₁ _ _ heq | failed call₁ phase hcall₁ _ heq | retried call₁ hcall₁ heq =>
    rw [hcall] at hcall₁
    cases hcall₁
    rw [heq]

theorem Came.dated (hcame : Came stores w e id call') (hstrong : stores.Strong)
    (hcall : w.calls id = some call) (hsound : call.phase.Sound stores w call.asked)
    (hsteady : Steady stores w e) (hrun : Run (World.step stores) ok start w)
    (hhit : ∀ held, w.snapshots.get call.asked.key = some held → call.asked.byTail = true →
      call.asked.fresh = false → Dated stores ok start w call.asked held.snapshot.commits)
    (hdated : ∀ target, call.phase.target = some target →
      Dated stores ok start w call.asked target) {target : List CommitFile}
    (htarget : call'.phase.target = some target) : Dated stores ok start w call.asked target := by
  cases hcame with
  | same hcall' =>
    rw [hcall] at hcall'
    cases hcall'
    exact hdated target htarget
  | started hnone hphase =>
    rw [hphase] at htarget
    cases htarget
  | acted call₁ phase hcall₁ he hnext heq =>
    rw [hcall] at hcall₁
    cases hcall₁
    subst heq he
    exact dated_next hstrong hsound (hsteady call hcall) hrun hhit hdated hnext htarget
  | failed call₁ phase hcall₁ hfails heq =>
    rw [hcall] at hcall₁
    cases hcall₁
    subst heq
    exact hdated target ((fails_sound hsound hfails).2 target htarget)
  | retried call₁ hcall₁ heq =>
    subst heq
    cases htarget

theorem Came.sound (hcame : Came stores w e id call') (hstrong : stores.Strong) (hw : Numbered w)
    (hcall : w.calls id = some call)
    (hcached : ∀ held, w.snapshots.get call.asked.key = some held → call.asked.cacheable = true →
      (Phase.checking held).Sound stores w call.asked)
    (hsound : call.phase.Sound stores w call.asked) (hsteady : Steady stores w e) :
    call'.phase.Sound stores w call.asked := by
  cases hcame with
  | same hcall' =>
    rw [hcall] at hcall'
    rw [← Option.some.inj hcall']
    exact hsound
  | started hnone hphase =>
    rw [hphase]
    trivial
  | acted call₁ phase hcall₁ he hnext heq =>
    rw [hcall] at hcall₁
    cases hcall₁
    subst heq he
    exact hsound.next hw hstrong hcached (hsteady call hcall) hnext
  | failed call₁ phase hcall₁ hfails heq =>
    rw [hcall] at hcall₁
    cases hcall₁
    subst heq
    exact (fails_sound hsound hfails).1
  | retried call₁ hcall₁ heq =>
    subst heq
    trivial

theorem calls_persist (h : w.step stores e = some w') (hcall : w.calls id = some call) :
    ∃ call', w'.calls id = some call' := by
  have hset : ∀ i call', ∃ call'', (w.setCall i call').calls id = some call'' := by
    intro i call'
    by_cases hid : id = i
    · exact ⟨call', if_pos hid⟩
    · exact ⟨call, (if_neg hid).trans hcall⟩
  cases e with
  | commit p content listing | replace p log | refreshTail location tableId tail
    | forget location =>
    rw [← Option.some.inj h]
    exact ⟨call, hcall⟩
  | start i asked =>
    cases hi : w.calls i with
    | some _ => simp [World.step, hi] at h
    | none =>
      simp only [World.step, hi, Option.some.injEq] at h
      rw [← h]
      exact hset i _
  | act i | fail i =>
    obtain ⟨_, -, h⟩ := Option.bind_eq_some_iff.mp h
    obtain ⟨_, -, h⟩ := Option.bind_eq_some_iff.mp h
    rw [← Option.some.inj h]
    exact hset i _
  | retry i =>
    obtain ⟨_, -, h⟩ := Option.bind_eq_some_iff.mp h
    split_ifs at h
    rw [← Option.some.inj h]
    exact hset i _

/-- What is known, after a run from `start`, of everything kept and of every call. -/
structure World.Sound (stores : Stores Token) (ok : World Token → Event → Prop)
    (start w : World Token) : Prop where
  reached : Run (World.step stores) ok start w
  numbered : Numbered w
  kept : ∀ entry ∈ w.snapshots, HeldSound stores w entry.1.place entry.2 ∧
    ∀ asked : Asked, asked.key = entry.1 → asked.cacheable = true ∨ asked.byTail = true →
      Dated stores ok start w asked entry.2.snapshot.commits
  calls : ∀ id call, w.calls id = some call → call.phase.Sound stores w call.asked ∧
    ∀ target, call.phase.target = some target → Dated stores ok start w call.asked target

theorem World.Initial.sound (h : w.Initial) : World.Sound stores ok w w where
  reached := .refl
  numbered := h.written
  kept entry hentry := by
    rw [h.snapshots] at hentry
    cases hentry
  calls id call hcall := by
    rw [h.calls] at hcall
    cases hcall

theorem World.Sound.cached (h : World.Sound stores ok start w) {held : Held Token}
    (hget : w.snapshots.get asked.key = some held) (hcacheable : asked.cacheable = true) :
    (Phase.checking held).Sound stores w asked := by
  obtain ⟨hheld, hdated⟩ := h.kept (asked.key, held) (Dict.mem_of_get hget)
  obtain ⟨m, -, -, hasof⟩ := hdated asked rfl (.inl hcacheable)
  obtain ⟨hne, -, hversion⟩ := hasof.length
  exact ⟨hheld, hcacheable, hne, hversion⟩

theorem World.Sound.step (hstrong : stores.Strong) (hok : ∀ w e, ok w e → Steady stores w e)
    (h : World.Sound stores ok start w) (he : ok w e) (hstep : w.step stores e = some w') :
    World.Sound stores ok start w' where
  reached := h.reached.step he hstep
  numbered := numbered_step h.numbered hstep
  kept entry hentry := by
    rcases snapshots_step hstep hentry with hold | ⟨id, call, hcall, hkept, hphase, hkey⟩
    · obtain ⟨hheld, hdated⟩ := h.kept entry hold
      exact ⟨hheld.step hstep, fun asked hasked hkept => (hdated asked hasked hkept).step he hstep⟩
    · obtain ⟨hsound, hdated⟩ := h.calls id call hcall
      rw [hphase] at hsound hdated
      refine ⟨?_, fun asked hasked hkept' => ?_⟩
      · rw [hkey]
        exact HeldSound.step hsound hstep
      · obtain ⟨m, hbefore, hafter, hasof⟩ := (hdated _ rfl).step he hstep
        exact ⟨m, hbefore, hafter,
          asOf_of_key (hkey.symm.trans hasked.symm) hkept hkept' hasof⟩
  calls id call' hcall' := by
    have hcame := calls_step hstep hcall'
    cases hcall : w.calls id with
    | none =>
      cases hcame with
      | started _ hphase =>
        rw [hphase]
        refine ⟨trivial, fun target htarget => ?_⟩
        cases htarget
      | same h' | acted _ _ h' | failed _ _ h' | retried _ h' =>
        rw [hcall] at h'
        cases h'
    | some call =>
      obtain ⟨hsound, hdated⟩ := h.calls id call hcall
      have hhit : ∀ held, w.snapshots.get call.asked.key = some held → call.asked.byTail = true →
          call.asked.fresh = false →
            Dated stores ok start w call.asked held.snapshot.commits := by
        intro held hget htail _
        exact (h.kept _ (Dict.mem_of_get hget)).2 call.asked rfl (.inr htail)
      have hsound' := hcame.sound hstrong h.numbered hcall (fun held => h.cached) hsound
        (hok w e he)
      rw [hcame.asks hcall]
      refine ⟨hsound'.step hstep, fun target htarget => ?_⟩
      have hdated' := hcame.dated hstrong hcall hsound (hok w e he) h.reached hhit hdated htarget
      exact hdated'.step he hstep

/-- The invariant holds all along a run, if no re-created table comes between requests. -/
theorem sound_of_run (hstrong : stores.Strong) (hok : ∀ w e, ok w e → Steady stores w e)
    (hinitial : start.Initial) (hrun : Run (World.step stores) ok start w) :
    World.Sound stores ok start w :=
  hrun.invariant hinitial.sound fun _ _ _ hsound he hstep => hsound.step hstrong hok he hstep

/-- A call asks at one state of the process, and returns a snapshot at another. -/
structure Returns (stores : Stores Token) (ok : World Token → Event → Prop) (id : Nat)
    (asked : Asked) (w w' : World Token) (snapshot : Snapshot) : Prop where
  asks : w.calls id = some ⟨asked, .ready, false⟩
  during : Run (World.step stores) ok w w'
  returns : ∃ call, w'.calls id = some call ∧ call.phase = .returned snapshot

variable {w₁ w₂ : World Token} {snapshot : Snapshot}

theorem Returns.asks_of (h : Returns stores ok id asked w₁ w₂ snapshot) :
    ∃ call, w₂.calls id = some call ∧ call.asked = asked ∧ call.phase = .returned snapshot := by
  have hkept : ∃ call, w₂.calls id = some call ∧ call.asked = asked := by
    refine h.during.invariant (P := fun w => ∃ call, w.calls id = some call ∧ call.asked = asked)
      ⟨_, h.asks, rfl⟩ ?_
    rintro w w' e ⟨call, hid, rfl⟩ _ hstep
    obtain ⟨call', hid'⟩ := calls_persist hstep hid
    exact ⟨call', hid', (calls_step hstep hid').asks hid⟩
  obtain ⟨call, hid, hasked⟩ := hkept
  obtain ⟨call', hid', hphase⟩ := h.returns
  rw [hid] at hid'
  cases hid'
  exact ⟨call, hid, hasked, hphase⟩

/-- A call that does not answer from the tail's cache dates its snapshot from its own start. -/
theorem Returns.dated {ok' : World Token → Event → Prop} {w₀ : World Token}
    (hstrong : stores.Strong) (hok : ∀ w e, ok w e → Steady stores w e)
    (hok' : ∀ w e, ok' w e → ok w e) (hsound : World.Sound stores ok w₀ w₁)
    (hcall : Returns stores ok' id asked w₁ w₂ snapshot)
    (hpath : asked.byTail = false ∨ asked.fresh = true) :
    Dated stores ok' w₁ w₂ asked snapshot.commits := by
  have hinv : World.Sound stores ok w₀ w₂ ∧ Run (World.step stores) ok' w₁ w₂ ∧
      ∃ call, w₂.calls id = some call ∧ call.asked = asked ∧
        ∀ target, call.phase.target = some target → Dated stores ok' w₁ w₂ asked target := by
    refine hcall.during.invariant (P := fun w => World.Sound stores ok w₀ w ∧
      Run (World.step stores) ok' w₁ w ∧ ∃ call, w.calls id = some call ∧ call.asked = asked ∧
        ∀ target, call.phase.target = some target → Dated stores ok' w₁ w asked target) ?_ ?_
    · exact ⟨hsound, .refl, _, hcall.asks, rfl, fun target htarget => by cases htarget⟩
    · rintro w w' e ⟨hw, hrun, call, hid, rfl, hdated⟩ he hstep
      refine ⟨hw.step hstrong hok (hok' w e he) hstep, hrun.step he hstep, ?_⟩
      obtain ⟨call', hcall'⟩ := calls_persist hstep hid
      have hphase := (hw.calls id call hid).1
      have hhit : ∀ held, w.snapshots.get call.asked.key = some held → call.asked.byTail = true →
          call.asked.fresh = false → Dated stores ok' w₁ w call.asked held.snapshot.commits := by
        intro held _ htail hfresh
        rcases hpath with hnot | hfresh'
        · exact absurd (htail.symm.trans hnot) (by decide)
        · exact absurd (hfresh'.symm.trans hfresh) (by decide)
      have hcame := calls_step hstep hcall'
      refine ⟨call', hcall', hcame.asks hid, fun target htarget => ?_⟩
      have hdated' :=
        hcame.dated hstrong hid hphase (hok w e (hok' w e he)) hrun hhit hdated htarget
      exact hdated'.step he hstep
  obtain ⟨-, -, call, hid, -, hdated⟩ := hinv
  obtain ⟨call', hid', hphase⟩ := hcall.returns
  rw [hid] at hid'
  rw [← Option.some.inj hid'] at hphase
  exact hdated snapshot.commits (by rw [hphase]; rfl)

def Event.replaces (place : Place) : Event → Prop
  | .replace p _ => p = place
  | _ => False

/-- A steady step that leaves the table at a place where it is. -/
def Undisturbed (stores : Stores Token) (place : Place) (w : World Token) (e : Event) : Prop :=
  Steady stores w e ∧ ¬ e.replaces place

theorem log_grows {place : Place} (h : Run (World.step stores) (Undisturbed stores place) w w') :
    w.storage place <+: w'.storage place := by
  induction h with
  | refl => exact prefix_refl _
  | @step s t e _ hok hstep ih =>
    refine ih.trans ?_
    rcases storage_step hstep with ⟨hstorage, -⟩ | ⟨p, content, listing, -, rfl⟩ |
      ⟨p, log, rfl, rfl⟩
    · exact hstorage ▸ prefix_refl _
    · simp only [World.setLog]
      split_ifs with hplace
      · subst hplace
        exact prefix_append _ _
      · exact prefix_refl _
    · have hplace : place ≠ p := fun heq => hok.2 heq.symm
      simp only [World.setLog, if_neg hplace]
      exact prefix_refl _

/-- While the table is the same, a later call for its latest version returns no earlier one. -/
theorem Returns.length_le {w₀ w₃ w₄ : World Token} {id' : Nat} {asked' : Asked}
    {snapshot' : Snapshot} (hstrong : stores.Strong) (hinitial : w₀.Initial)
    (hbefore : Run (World.step stores) (Steady stores) w₀ w₁)
    (hearlier : Returns stores (Undisturbed stores asked.place) id' asked' w₁ w₂ snapshot')
    (hbetween : Run (World.step stores) (Undisturbed stores asked.place) w₂ w₃)
    (hlater : Returns stores (Undisturbed stores asked.place) id asked w₃ w₄ snapshot)
    (hplace : asked'.place = asked.place) (hpath : asked'.byTail = false ∨ asked'.fresh = true)
    (hcacheable : asked.cacheable = true) (hversion : asked.version = none) :
    snapshot'.commits.length ≤ snapshot.commits.length := by
  have hok : ∀ w e, Undisturbed stores asked.place w e → Steady stores w e := fun _ _ h => h.1
  have hsound₁ := sound_of_run hstrong (fun _ _ h => h) hinitial hbefore
  have hrun₃ : Run (World.step stores) (Steady stores) w₀ w₃ :=
    (hbefore.trans (hearlier.during.weaken hok)).trans (hbetween.weaken hok)
  have hsound₃ := sound_of_run hstrong (fun _ _ h => h) hinitial hrun₃
  have htail : asked.byTail = false := by
    simp [Asked.byTail, hcacheable]
  obtain ⟨m, -, hm, hasof⟩ := hearlier.dated hstrong (fun _ _ h => h) hok hsound₁ hpath
  obtain ⟨m', hm', -, n, hends, hcommits⟩ :=
    hlater.dated hstrong (fun _ _ h => h) hok hsound₃ (.inl htail)
  have hgrown := log_grows ((hm.trans hbetween).trans hm')
  have hlength := hasof.length.2.1
  rw [hplace] at hlength
  have hall : n = (m'.storage asked.place).length := by
    simp only [Asked.cacheable, Bool.and_eq_true, decide_eq_true_eq] at hcacheable
    rw [hversion, hcacheable.2] at hends
    simp only [ends] at hends
    split_ifs at hends
    exact (Option.some.inj hends).symm
  rw [hcommits, hall, take_length]
  exact hlength.trans hgrown.length_le

/-- In every run in which no re-created table comes between two requests of a call that rely on one
another: a snapshot is the log of one moment, within the call unless the tail's cache answers; and
while the table is not replaced, the latest version does not go back. -/
theorem snapshot_as_stored {w₀ : World Token} (hstrong : stores.Strong) (hinitial : w₀.Initial) :
    (∀ w₁ w₂ id asked snapshot, Run (World.step stores) (Steady stores) w₀ w₁ →
      Returns stores (Steady stores) id asked w₁ w₂ snapshot →
        Dated stores (Steady stores) w₀ w₂ asked snapshot.commits ∧
        (asked.byTail = false ∨ asked.fresh = true →
          Dated stores (Steady stores) w₁ w₂ asked snapshot.commits)) ∧
    (∀ w₁ w₂ w₃ w₄ id id' asked asked' snapshot snapshot',
      Run (World.step stores) (Steady stores) w₀ w₁ →
      Returns stores (Undisturbed stores asked.place) id' asked' w₁ w₂ snapshot' →
      Run (World.step stores) (Undisturbed stores asked.place) w₂ w₃ →
      Returns stores (Undisturbed stores asked.place) id asked w₃ w₄ snapshot →
      asked'.place = asked.place → asked'.byTail = false ∨ asked'.fresh = true →
      asked.cacheable = true → asked.version = none →
        snapshot'.commits.length ≤ snapshot.commits.length) := by
  refine ⟨?_, ?_⟩
  · intro w₁ w₂ id asked snapshot hbefore hcall
    have hsound₁ := sound_of_run hstrong (fun _ _ h => h) hinitial hbefore
    have hsound₂ := sound_of_run hstrong (fun _ _ h => h) hinitial (hbefore.trans hcall.during)
    refine ⟨?_, hcall.dated hstrong (fun _ _ h => h) (fun _ _ h => h) hsound₁⟩
    obtain ⟨call, hid, rfl, hphase⟩ := hcall.asks_of
    exact (hsound₂.calls id call hid).2 snapshot.commits (by rw [hphase]; rfl)
  · intro w₁ w₂ w₃ w₄ id id' asked asked' snapshot snapshot' hbefore hearlier hbetween hlater hplace
      hpath hcacheable hversion
    exact hearlier.length_le hstrong hinitial hbefore hbetween hlater hplace hpath hcacheable
      hversion

end

/-- A store whose token for a file is the write it is of. -/
def plainStores : Stores CommitFile where
  isFile _ := false
  identity _ file := some file

def plainPlace : Place := ⟨"s3://bucket/table", ""⟩

/-- A table of one commit, and a process that has not seen it. -/
def oneCommit : World CommitFile where
  storage place := if place = plainPlace then [⟨"create", ⟨10, 0⟩, 0⟩] else []
  writes := 1
  snapshots := []
  tails := []
  calls _ := none

theorem oneCommit_initial : oneCommit.Initial where
  written place file hfile := by
    simp only [oneCommit] at hfile ⊢
    split_ifs at hfile
    · rw [mem_singleton.mp hfile]
      exact Nat.zero_lt_one
    · cases hfile
  snapshots := rfl
  calls _ := rfl

/-- The latest version of a table read from its path. -/
def plainAsked : Asked := ⟨plainPlace, none, false, ⟨[], none⟩, none, false⟩

/-- A table of the catalog's, whose version 0 it has ratified. -/
def ratifiedAsked : Asked := ⟨plainPlace, some "id", true, ⟨[], some 0⟩, none, false⟩

/-- A call resolves the table, another writer commits, and a second call asks. -/
def askedTwice (asked : Asked) : List Event :=
  [.start 0 asked, .act 0, .act 0, .act 0, .act 0, .act 0, .commit plainPlace "append" ⟨12, 1⟩,
    .start 1 asked]

theorem run_get {events : List Event} {w : World CommitFile}
    (h : (replay (World.step plainStores) (Steady plainStores) w events).isSome = true) :
    Run (World.step plainStores) (Steady plainStores) w
      ((replay (World.step plainStores) (Steady plainStores) w events).get h) :=
  .of_replay (Option.some_get h).symm

theorem snapshot_as_stored_updated :
    ∃ w₁ w₂ snapshot, Returns plainStores (Steady plainStores) 1 plainAsked w₁ w₂ snapshot ∧
      snapshot.commits.length = 2 ∧
      Dated plainStores (Steady plainStores) w₁ w₂ plainAsked snapshot.commits := by
  have hasked : (replay (World.step plainStores) (Steady plainStores) oneCommit
    (askedTwice plainAsked)).isSome = true := by decide
  have hcalled : (replay (World.step plainStores) (Steady plainStores)
    ((replay (World.step plainStores) (Steady plainStores) oneCommit
      (askedTwice plainAsked)).get hasked) (List.replicate 6 (.act 1))).isSome = true := rfl
  have hreturns : Returns plainStores (Steady plainStores) 1 plainAsked _ _
      ⟨[⟨"create", ⟨10, 0⟩, 0⟩, ⟨"append", ⟨12, 1⟩, 1⟩], ⟨12, 1⟩⟩ :=
    { asks := rfl
      during := run_get hcalled
      returns := ⟨⟨plainAsked, .returned _, false⟩, rfl, rfl⟩ }
  refine ⟨_, _, _, hreturns, rfl, ?_⟩
  exact ((snapshot_as_stored (fun _ _ _ _ hf hg => Option.some.inj (hf.trans hg.symm))
    oneCommit_initial).1 _ _ 1 plainAsked _ (run_get hasked) hreturns).2 (.inl rfl)

/-- A catalog-managed table's second call: the snapshot kept for the tail its caller holds, while
the log has gone on. -/
theorem ratified_call_behind :
    ∃ w₁ w₂ snapshot, Run (World.step plainStores) (Steady plainStores) oneCommit w₁ ∧
      w₁.calls 1 = some ⟨ratifiedAsked, .ready, false⟩ ∧
      w₁.step plainStores (.act 1) = some w₂ ∧
      w₂.calls 1 = some ⟨ratifiedAsked, .returned snapshot, false⟩ ∧
      w₁.storage plainPlace ≠ snapshot.commits ∧ w₂.storage plainPlace ≠ snapshot.commits := by
  have hasked : (replay (World.step plainStores) (Steady plainStores) oneCommit
    (askedTwice ratifiedAsked)).isSome = true := by decide
  have hcalled : (World.step plainStores ((replay (World.step plainStores) (Steady plainStores)
    oneCommit (askedTwice ratifiedAsked)).get hasked) (.act 1)).isSome = true := rfl
  refine ⟨_, _, ⟨[⟨"create", ⟨10, 0⟩, 0⟩], ⟨10, 0⟩⟩, run_get hasked, rfl,
    (Option.some_get hcalled).symm, rfl, fun h => ?_, fun h => ?_⟩
  · exact absurd (congrArg List.length h) (Nat.succ_ne_self 1)
  · exact absurd (congrArg List.length h) (Nat.succ_ne_self 1)

end DeltaSwamp.Snapshots
