import DeltaSwamp.Vending.Served

/-!
# What invalidation and expiry ask for

While no invalidation comes between a vend request and its credential's arrival
in the cache, every answer is newer than the last invalidation before its call;
an expired one is returned only within the grace of one that arrived expired.
-/

namespace DeltaSwamp.Vending

/-- An expired credential is an answer only within the grace of one that arrived expired. -/
def Outcome.Live : Outcome → Prop
  | .answered _ cred now => cred.isExpired now = true →
    cred.isExpired cred.arrived = true ∧ now - cred.arrived < clockSkewGrace
  | .raised .. => True

/-- The vend an answer is from was requested after the last invalidation before the call. -/
def Outcome.Honoured : Outcome → Prop
  | .answered call cred _ => call.begun ≤ cred.requested
  | .raised .. => True

/-- Between a vend request and its credential's arrival in the cache. -/
def Phase.inFlight : Phase → Prop
  | .vending .. | .vended .. => True
  | _ => False

/-- The credential a call has found unexpired and is about to return. -/
def Phase.promised : Phase → Option Cred
  | .looked _ cached true => cached
  | .fallback _ cached => some cached
  | _ => none

/-- No invalidation while a vend is in flight, and no wait past the expiry of a credential that a
call has found unexpired and is about to return. -/
def Undisturbed (s : World) : Action → Prop
  | .invalidate => ∀ t, ¬ (s.calls t).inFlight
  | .tick elapsed => ∀ t, ∀ c ∈ (s.calls t).promised, c.isExpired (s.clock + elapsed) = false
  | _ => True

/-- What a call knows is newer than the invalidations before it. -/
def Phase.Current (invalidations : Nat) : Phase → Prop
  | .idle => True
  | .begun call => call.begun ≤ invalidations
  | .looked call cached _ | .locked call cached | .unserved call cached =>
    call.begun ≤ invalidations ∧ ∀ c ∈ cached, call.begun ≤ c.requested
  | .vending call cached requested => call.begun ≤ invalidations ∧ invalidations ≤ requested ∧
    ∀ c ∈ cached, call.begun ≤ c.requested
  | .vended call fresh => call.begun ≤ invalidations ∧ invalidations ≤ fresh.requested
  | .fallback call cached => call.begun ≤ cached.requested

structure Kept (s : World) : Prop where
  sound : Sound s
  cache : ∀ operation, ∀ c ∈ s.cache operation, s.invalidations ≤ c.requested
  calls : ∀ t, (s.calls t).Current s.invalidations
  promised : ∀ t, ∀ c ∈ (s.calls t).promised, c.isExpired s.clock = false
  outcomes : ∀ o ∈ s.outcomes, o.Live ∧ o.Honoured

section
variable {refreshMargin : ℚ} {s s' : World} {t : Thread} {call : Call} {cached : Option Cred}
  {phase : Phase} {outcome : Outcome}

theorem current_update (h : ∀ t, (s.calls t).Current s.invalidations)
    (hphase : phase.Current s.invalidations) (t' : Thread) :
    (Function.update s.calls t phase t').Current s.invalidations := by
  by_cases ht : t' = t
  · subst ht
    rw [Function.update_self]
    exact hphase
  · rw [Function.update_of_ne ht]
    exact h t'

theorem promised_update (h : ∀ t, ∀ c ∈ (s.calls t).promised, c.isExpired s.clock = false)
    (hphase : ∀ c ∈ phase.promised, c.isExpired s.clock = false) (t' : Thread) :
    ∀ c ∈ (Function.update s.calls t phase t').promised, c.isExpired s.clock = false := by
  by_cases ht : t' = t
  · subst ht
    rw [Function.update_self]
    exact hphase
  · rw [Function.update_of_ne ht]
    exact h t'

theorem served_cons {outcomes : List Outcome} (h : ∀ o ∈ outcomes, o.Live ∧ o.Honoured)
    (hnew : outcome.Live ∧ outcome.Honoured) : ∀ o ∈ outcome :: outcomes, o.Live ∧ o.Honoured := by
  intro o ho
  rcases List.mem_cons.mp ho with rfl | ho
  · exact hnew
  · exact h o ho

theorem live_of_unexpired {c : Cred} (h : c.isExpired s.clock = false) :
    (Outcome.answered call c s.clock).Live := by
  intro hexpired
  rw [h] at hexpired
  cases hexpired

theorem marginFor_nonneg (hmargin : 0 ≤ refreshMargin) (vendedAt : Option ℚ) (c : Cred) :
    0 ≤ marginFor refreshMargin vendedAt c := by
  unfold marginFor
  split
  · apply le_min hmargin
    positivity
  · exact hmargin

/-- What the cache may serve is unexpired, or within the grace of one that arrived expired. -/
theorem live_of_fresh (hmargin : 0 ≤ refreshMargin) (h : Sound s) {operation : Operation} {c : Cred}
    (hcache : s.cache operation = some c) (hfresh : isFresh refreshMargin s operation c = true) :
    (Outcome.answered call c s.clock).Live := by
  obtain ⟨-, hvended, hskewed⟩ := h.cache operation c hcache
  intro hexpired
  unfold isFresh at hfresh
  rw [hvended, hskewed] at hfresh
  cases hexpires : c.expiresAt with
  | none => simp [Cred.isExpired, Cred.expiresWithin, hexpires] at hexpired
  | some expiresAt =>
    rw [hexpires] at hfresh
    dsimp only at hfresh
    cases harrived : c.isExpired c.arrived with
    | true =>
      rw [harrived] at hfresh
      exact ⟨rfl, by simpa using hfresh⟩
    | false =>
      rw [harrived] at hfresh
      have hnonneg := marginFor_nonneg hmargin (some c.arrived) c
      simp only [Cred.expiresWithin, Cred.isExpired, hexpires, Bool.not_eq_true',
        decide_eq_false_iff_not, decide_eq_true_eq] at hfresh hexpired
      linarith

theorem kept_look (hmargin : 0 ≤ refreshMargin) (h : Kept s) (hphase : s.calls t = .begun call) :
    Kept (s.look refreshMargin t call) := by
  have hsound : Sound (s.look refreshMargin t call) := sound_look h.sound hphase
  have hbegun : call.begun ≤ s.invalidations := by
    have := h.calls t
    rwa [hphase] at this
  unfold World.look at hsound ⊢
  cases hcache : s.cache call.operation with
  | none =>
    rw [hcache] at hsound
    exact ⟨hsound, h.cache, current_update h.calls ⟨hbegun, fun _ hc => nomatch hc⟩,
      promised_update h.promised (fun _ hc => nomatch hc), h.outcomes⟩
  | some c =>
    rw [hcache] at hsound
    dsimp only at hsound ⊢
    have hrequested : call.begun ≤ c.requested :=
      hbegun.trans (h.cache call.operation c hcache)
    split_ifs at hsound ⊢ with hserve
    · refine ⟨hsound, h.cache, current_update h.calls trivial,
        promised_update h.promised (fun _ hc => nomatch hc),
        served_cons h.outcomes ⟨?_, hrequested⟩⟩
      rw [Bool.or_eq_true, Bool.and_eq_true, Bool.not_eq_true'] at hserve
      rcases hserve with hfresh | ⟨husable, -⟩
      · exact live_of_fresh hmargin h.sound hcache hfresh
      · exact live_of_unexpired husable
    · refine ⟨hsound, h.cache, current_update h.calls ⟨hbegun, ?_⟩,
        promised_update h.promised ?_, h.outcomes⟩
      · intro c' hc'
        cases hc'
        exact hrequested
      · intro c' hc'
        cases husable : c.isExpired s.clock with
        | false =>
          rw [husable] at hc'
          cases hc'
          exact husable
        | true =>
          rw [husable] at hc'
          cases hc'

theorem kept_lock {usable : Bool} (h : Kept s) (hphase : s.calls t = .looked call cached usable)
    (hlock : s.lock t call cached usable = some s') : Kept s' := by
  have hsound := sound_lock h.sound hphase hlock
  have hcurrent : call.begun ≤ s.invalidations ∧ ∀ c ∈ cached, call.begun ≤ c.requested := by
    have := h.calls t
    rwa [hphase] at this
  have hpromised := h.promised t
  rw [hphase] at hpromised
  unfold World.lock at hlock
  split at hlock
  · cases hlock
    exact ⟨hsound, h.cache, current_update h.calls hcurrent,
      promised_update h.promised (fun _ hc => nomatch hc), h.outcomes⟩
  · rename_i c _
    cases hlock
    exact ⟨hsound, h.cache, current_update h.calls trivial,
      promised_update h.promised (fun _ hc => nomatch hc),
      served_cons h.outcomes ⟨live_of_unexpired (hpromised c rfl), hcurrent.2 c rfl⟩⟩
  · cases hlock

theorem kept_recheck (hmargin : 0 ≤ refreshMargin) (h : Kept s)
    (hphase : s.calls t = .locked call cached) : Kept (s.recheck refreshMargin t call cached) := by
  have hsound : Sound (s.recheck refreshMargin t call cached) := sound_recheck h.sound hphase
  have hcurrent : call.begun ≤ s.invalidations ∧ ∀ c ∈ cached, call.begun ≤ c.requested := by
    have := h.calls t
    rwa [hphase] at this
  have hstay : Sound (s.enter t (.unserved call cached)) →
      Kept (s.enter t (.unserved call cached)) :=
    fun hsound => ⟨hsound, h.cache, current_update h.calls hcurrent,
      promised_update h.promised (fun _ hc => nomatch hc), h.outcomes⟩
  unfold World.recheck at hsound ⊢
  cases hcache : s.cache call.operation with
  | none =>
    rw [hcache] at hsound
    exact hstay hsound
  | some current =>
    rw [hcache] at hsound
    dsimp only at hsound ⊢
    split_ifs at hsound ⊢ with hserve
    · exact ⟨hsound, h.cache, current_update h.calls trivial,
        promised_update h.promised (fun _ hc => nomatch hc),
        served_cons h.outcomes ⟨live_of_fresh hmargin h.sound hcache hserve.2,
          hcurrent.1.trans (h.cache call.operation current hcache)⟩⟩
    · exact hstay hsound

theorem kept_answer {requested : Nat} (h : Kept s)
    (hphase : s.calls t = .vending call cached requested) (result : Option (Option ℚ)) :
    Kept (s.answer t call cached requested result) := by
  have hsound := sound_answer h.sound hphase result
  have hcurrent : call.begun ≤ s.invalidations ∧ s.invalidations ≤ requested ∧
      ∀ c ∈ cached, call.begun ≤ c.requested := by
    have := h.calls t
    rwa [hphase] at this
  unfold World.answer at hsound ⊢
  cases result with
  | some expiresAt =>
    exact ⟨hsound, h.cache, current_update h.calls ⟨hcurrent.1, hcurrent.2.1⟩,
      promised_update h.promised (fun _ hc => nomatch hc), h.outcomes⟩
  | none =>
    dsimp only at hsound ⊢
    have hraised : ∀ seen, (Outcome.raised call seen s.clock).Live ∧
        (Outcome.raised call seen s.clock).Honoured := fun _ => ⟨trivial, trivial⟩
    cases cached with
    | none =>
      exact ⟨hsound, h.cache, current_update h.calls trivial,
        promised_update h.promised (fun _ hc => nomatch hc),
        served_cons h.outcomes (hraised none)⟩
    | some c =>
      dsimp only at hsound ⊢
      split_ifs at hsound ⊢ with hexpired
      · exact ⟨hsound, h.cache, current_update h.calls trivial,
          promised_update h.promised (fun _ hc => nomatch hc),
          served_cons h.outcomes (hraised (some c))⟩
      · refine ⟨hsound, h.cache, current_update h.calls (hcurrent.2.2 c rfl),
          promised_update h.promised ?_, h.outcomes⟩
        intro c' hc'
        cases hc'
        exact (Bool.not_eq_true _).mp hexpired

theorem kept_store {fresh : Cred} (h : Kept s) (hphase : s.calls t = .vended call fresh) :
    Kept (s.store t call fresh) := by
  have hcurrent : call.begun ≤ s.invalidations ∧ s.invalidations ≤ fresh.requested := by
    have := h.calls t
    rwa [hphase] at this
  refine ⟨sound_store h.sound hphase, ?_, current_update h.calls trivial,
    promised_update h.promised (fun _ hc => nomatch hc), served_cons h.outcomes ⟨?_, ?_⟩⟩
  · intro operation c hc
    change c ∈ Function.update s.cache call.operation _ operation at hc
    by_cases hoperation : operation = call.operation
    · subst hoperation
      rw [Function.update_self] at hc
      cases hc
      exact hcurrent.2
    · rw [Function.update_of_ne hoperation] at hc
      exact h.cache operation c hc
  · intro hexpired
    refine ⟨hexpired, ?_⟩
    rw [sub_self, clockSkewGrace]
    norm_num
  · exact hcurrent.1.trans hcurrent.2

theorem kept_invalidate (h : Kept s) (hok : ∀ t, ¬ (s.calls t).inFlight) : Kept s.invalidate := by
  have hnext : s.next 0 .invalidate = some s.invalidate := rfl
  refine ⟨sound_next h.sound hnext, (fun _ _ hc => nomatch hc), fun t => ?_, h.promised,
    h.outcomes⟩
  change (s.calls t).Current (s.invalidations + 1)
  have hcurrent := h.calls t
  have hidle := hok t
  cases hphase : s.calls t with
  | idle => trivial
  | begun call =>
    rw [hphase] at hcurrent
    exact Nat.le_succ_of_le hcurrent
  | looked | locked | unserved =>
    rw [hphase] at hcurrent
    exact ⟨Nat.le_succ_of_le hcurrent.1, hcurrent.2⟩
  | fallback =>
    rw [hphase] at hcurrent
    exact hcurrent
  | vending | vended =>
    rw [hphase] at hidle
    exact absurd trivial hidle

/-- Every undisturbed action keeps the invariant. -/
theorem kept_next {a : Action} (hmargin : 0 ≤ refreshMargin) (h : Kept s) (hok : Undisturbed s a)
    (hnext : s.next refreshMargin a = some s') : Kept s' := by
  have hsound := sound_next h.sound hnext
  cases a with
  | begin t operation =>
    simp only [World.next] at hnext
    split at hnext
    · cases hnext
      exact ⟨hsound, h.cache, current_update h.calls (Nat.le_refl _),
        promised_update h.promised (fun _ hc => by cases hc), h.outcomes⟩
    · cases hnext
  | look t =>
    simp only [World.next] at hnext
    split at hnext
    · rename_i hphase
      cases hnext
      exact kept_look hmargin h hphase
    · cases hnext
  | lock t =>
    simp only [World.next] at hnext
    split at hnext
    · rename_i hphase
      exact kept_lock h hphase hnext
    · cases hnext
  | recheck t =>
    simp only [World.next] at hnext
    split at hnext
    · rename_i hphase
      cases hnext
      exact kept_recheck hmargin h hphase
    · cases hnext
  | request t =>
    simp only [World.next] at hnext
    split at hnext
    · rename_i call cached hphase
      cases hnext
      have hcurrent : call.begun ≤ s.invalidations ∧ ∀ c ∈ cached, call.begun ≤ c.requested := by
        have := h.calls t
        rwa [hphase] at this
      exact ⟨hsound, h.cache,
        current_update h.calls ⟨hcurrent.1, Nat.le_refl _, hcurrent.2⟩,
        promised_update h.promised (fun _ hc => by cases hc), h.outcomes⟩
    · cases hnext
  | answer t result =>
    simp only [World.next] at hnext
    split at hnext
    · rename_i hphase
      cases hnext
      exact kept_answer h hphase result
    · cases hnext
  | store t =>
    simp only [World.next] at hnext
    split at hnext
    · rename_i hphase
      cases hnext
      exact kept_store h hphase
    · cases hnext
  | backOff t =>
    simp only [World.next] at hnext
    split at hnext
    · rename_i call cached hphase
      cases hnext
      have hcurrent : call.begun ≤ cached.requested := by
        have := h.calls t
        rwa [hphase] at this
      have hunexpired := h.promised t cached (by rw [hphase]; rfl)
      exact ⟨hsound, h.cache, current_update h.calls trivial,
        promised_update h.promised (fun _ hc => by cases hc),
        served_cons h.outcomes ⟨live_of_unexpired hunexpired, hcurrent⟩⟩
    · cases hnext
  | invalidate =>
    cases hnext
    exact kept_invalidate h hok
  | tick elapsed =>
    simp only [World.next] at hnext
    split_ifs at hnext
    cases hnext
    exact ⟨hsound, h.cache, h.calls, hok, h.outcomes⟩

theorem kept_start (clock : ℚ) : Kept (.start clock) where
  sound := sound_start clock
  cache := fun _ _ hc => nomatch hc
  calls := fun _ => trivial
  promised := fun _ _ hc => nomatch hc
  outcomes := fun _ ho => nomatch ho

end

/-- Any run vends once at a time, makes no call wait and answers with the right credentials; one
that nothing disturbs answers with live ones, newer than the invalidations before the call. -/
theorem provider_serves (refreshMargin clock : ℚ) :
    (∀ s, Run (World.next refreshMargin) (fun _ _ => True) (.start clock) s →
      OneVend s ∧ NoWait refreshMargin s ∧ ∀ o ∈ s.outcomes, o.Right s.failed) ∧
    (0 ≤ refreshMargin → ∀ s, Run (World.next refreshMargin) Undisturbed (.start clock) s →
      ∀ o ∈ s.outcomes, o.Live ∧ o.Honoured) := by
  constructor
  · intro s hrun
    have hsound : Sound s :=
      hrun.invariant (sound_start clock) fun _ _ _ h _ hnext => sound_next h hnext
    exact ⟨hsound.oneVend, noWait refreshMargin s, hsound.outcomes⟩
  · intro hmargin s hrun
    have hkept : Kept s :=
      hrun.invariant (kept_start clock) fun _ _ _ h hok hnext => kept_next hmargin h hok hnext
    exact hkept.outcomes

/-- An invalidation while a thread's vend is out, and another call after both. -/
def overtaken : List Action :=
  [.begin 0 .read, .look 0, .lock 0, .recheck 0, .request 0, .invalidate,
    .answer 0 (some (some 3600)), .store 0, .begin 1 .read, .look 1]

theorem overtaken_outcomes :
    (replay (World.next 300) (fun _ _ => True) (.start 0) overtaken).map World.outcomes =
      some [.answered ⟨1, .read, 1⟩ ⟨0, .read, some 3600, 0, 0⟩ 0,
        .answered ⟨0, .read, 0⟩ ⟨0, .read, some 3600, 0, 0⟩ 0] := by
  decide +kernel

theorem invalidated_served : ¬ ∀ s, Run (World.next 300) (fun _ _ => True) (.start 0) s →
    ∀ o ∈ s.outcomes, o.Live ∧ o.Honoured := by
  intro h
  obtain ⟨s, hs, houtcomes⟩ := Option.map_eq_some_iff.mp overtaken_outcomes
  have hall := h s (.of_replay hs)
  rw [houtcomes] at hall
  have hhonoured : 1 ≤ 0 := (hall _ List.mem_cons_self).2
  exact absurd hhonoured (by decide)

/-- One call vends, and another is served from the cache. -/
def shared : List Action :=
  [.begin 0 .read, .look 0, .lock 0, .recheck 0, .request 0, .answer 0 (some (some 3600)),
    .store 0, .begin 1 .read, .look 1]

def Action.isCall : Action → Bool
  | .invalidate | .tick _ => false
  | _ => true

theorem shared_outcomes :
    (replay (World.next 300) (fun _ a => a.isCall = true) (.start 0) shared).map World.outcomes =
      some [.answered ⟨1, .read, 0⟩ ⟨0, .read, some 3600, 0, 0⟩ 0,
        .answered ⟨0, .read, 0⟩ ⟨0, .read, some 3600, 0, 0⟩ 0] := by
  decide +kernel

theorem provider_serves_shared : ∃ s, s.outcomes.length = 2 ∧ OneVend s ∧ NoWait 300 s ∧
    ∀ o ∈ s.outcomes, o.Right s.failed ∧ o.Live ∧ o.Honoured := by
  obtain ⟨s, hs, houtcomes⟩ := Option.map_eq_some_iff.mp shared_outcomes
  have hrun : Run (World.next 300) (fun _ a => a.isCall = true) (.start 0) s := .of_replay hs
  have hquiet : Run (World.next 300) Undisturbed (.start 0) s := by
    apply hrun.weaken
    intro s a ha
    cases a with
    | invalidate | tick => cases ha
    | begin | look | lock | recheck | request | answer | store | backOff => trivial
  obtain ⟨hany, hundisturbed⟩ := provider_serves 300 0
  obtain ⟨hone, hwait, hright⟩ := hany s (hrun.weaken fun _ _ _ => trivial)
  have hserved := hundisturbed (by norm_num) s hquiet
  exact ⟨s, by rw [houtcomes]; rfl, hone, hwait, fun o ho => ⟨hright o ho, hserved o ho⟩⟩

end DeltaSwamp.Vending
