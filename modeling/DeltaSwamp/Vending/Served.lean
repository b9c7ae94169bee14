import DeltaSwamp.Vending.Provider

/-!
# What every call is served

Over any interleaving: one vend of an operation at a time, a call with a usable
credential never waits, and an answer is a credential of the call's operation.
-/

namespace DeltaSwamp.Vending

/-- The operation whose vend lock a call has. -/
def Phase.lockOf : Phase → Option Operation
  | .locked call _ | .unserved call _ | .vending call _ _ | .vended call _ | .fallback call _ =>
    some call.operation
  | .idle | .begun _ | .looked _ _ _ => none

/-- The operation a call has asked the workspace for, with no answer so far. -/
def Phase.vendOf : Phase → Option Operation
  | .vending call _ _ => some call.operation
  | _ => none

/-- At most one vend of an operation is in flight. -/
def OneVend (s : World) : Prop :=
  ∀ t t' operation, (s.calls t).vendOf = some operation → (s.calls t').vendOf = some operation →
    t = t'

/-- A call that finds an unexpired credential goes on at once, and returns it where another
thread has the vend lock. -/
structure NoWait (refreshMargin : ℚ) (s : World) : Prop where
  look : ∀ t call cached, s.calls t = .begun call → s.cache call.operation = some cached →
    cached.isExpired s.clock = false → ∃ s', s.next refreshMargin (.look t) = some s' ∧
      (s'.outcomes = .answered call cached s.clock :: s.outcomes ∨
        s'.calls t = .looked call (some cached) true)
  lock : ∀ t call cached, s.calls t = .looked call (some cached) true →
    ∃ s', s.next refreshMargin (.lock t) = some s' ∧ (s.vendLock call.operation ≠ none →
      s'.outcomes = .answered call cached s.clock :: s.outcomes)

/-- An answer is a credential vended for the call's operation, and a call raises only if its own
vend failed and the credential it had seen is expired or absent. -/
def Outcome.Right (failed : List Nat) : Outcome → Prop
  | .answered call cred _ => cred.operation = call.operation
  | .raised call cached now => call.id ∈ failed ∧ ∀ c ∈ cached, c.isExpired now = true

def Locks (s : World) : Prop :=
  ∀ t operation, (s.calls t).lockOf = some operation → s.vendLock operation = some t

/-- The credentials a call knows are of its operation. -/
def Phase.Own : Phase → Prop
  | .looked call cached _ | .locked call cached | .unserved call cached | .vending call cached _ =>
    ∀ c ∈ cached, c.operation = call.operation
  | .vended call fresh => fresh.operation = call.operation
  | .fallback call cached => cached.operation = call.operation
  | .idle | .begun _ => True

structure Sound (s : World) : Prop where
  locks : Locks s
  cache : ∀ operation, ∀ c ∈ s.cache operation, c.operation = operation ∧
    s.vendedAt operation = some c.arrived ∧ s.skewed operation = c.isExpired c.arrived
  calls : ∀ t, (s.calls t).Own
  outcomes : ∀ o ∈ s.outcomes, o.Right s.failed

section
variable {s : World} {t : Thread} {phase : Phase} {operation : Operation} {outcome : Outcome}

@[simp] theorem calls_enter : (s.enter t phase).calls = Function.update s.calls t phase := rfl

theorem own_update (h : ∀ t, (s.calls t).Own) (hphase : phase.Own) (t' : Thread) :
    (Function.update s.calls t phase t').Own := by
  by_cases ht : t' = t
  · subst ht
    rw [Function.update_self]
    exact hphase
  · rw [Function.update_of_ne ht]
    exact h t'

theorem Locks.enter (h : Locks s) (hsame : phase.lockOf = (s.calls t).lockOf) :
    Locks (s.enter t phase) := by
  intro t' operation hlock
  by_cases ht : t' = t
  · subst ht
    rw [calls_enter, Function.update_self, hsame] at hlock
    exact h t' operation hlock
  · rw [calls_enter, Function.update_of_ne ht] at hlock
    exact h t' operation hlock

theorem Locks.take (h : Locks s) (hfree : s.vendLock operation = none)
    (hphase : phase.lockOf = some operation) :
    Locks { s.enter t phase with vendLock := Function.update s.vendLock operation (some t) } := by
  intro t' operation' hlock
  change (Function.update s.calls t phase t').lockOf = some operation' at hlock
  change Function.update s.vendLock operation (some t) operation' = some t'
  by_cases ht : t' = t
  · subst ht
    rw [Function.update_self, hphase] at hlock
    rw [← Option.some.inj hlock, Function.update_self]
  · rw [Function.update_of_ne ht] at hlock
    have hheld := h t' operation' hlock
    rw [Function.update_of_ne, hheld]
    rintro rfl
    rw [hfree] at hheld
    cases hheld

theorem Locks.release (h : Locks s) (hheld : (s.calls t).lockOf = some operation) :
    Locks ((s.finish t outcome).release operation) := by
  intro t' operation' hlock
  change (Function.update s.calls t .idle t').lockOf = some operation' at hlock
  change Function.update s.vendLock operation none operation' = some t'
  by_cases ht : t' = t
  · subst ht
    rw [Function.update_self] at hlock
    cases hlock
  · rw [Function.update_of_ne ht] at hlock
    rw [Function.update_of_ne, h t' operation' hlock]
    rintro rfl
    exact ht (Option.some.inj ((h t' operation' hlock).symm.trans (h t operation' hheld)))

theorem Sound.enter (h : Sound s) (hsame : phase.lockOf = (s.calls t).lockOf)
    (hphase : phase.Own) : Sound (s.enter t phase) where
  locks := h.locks.enter hsame
  cache := h.cache
  calls := own_update h.calls hphase
  outcomes := h.outcomes

theorem right_cons {failed : List Nat} {outcomes : List Outcome}
    (h : ∀ o ∈ outcomes, o.Right failed) (hnew : outcome.Right failed) :
    ∀ o ∈ outcome :: outcomes, o.Right failed := by
  intro o ho
  rcases List.mem_cons.mp ho with rfl | ho
  · exact hnew
  · exact h o ho

theorem Sound.finish (h : Sound s) (hnone : (s.calls t).lockOf = none)
    (hright : outcome.Right s.failed) : Sound (s.finish t outcome) where
  locks := h.locks.enter (by rw [hnone]; rfl)
  cache := h.cache
  calls := own_update h.calls trivial
  outcomes := right_cons h.outcomes hright

theorem Sound.release (h : Sound s) (hheld : (s.calls t).lockOf = some operation)
    (hright : outcome.Right s.failed) : Sound ((s.finish t outcome).release operation) where
  locks := h.locks.release hheld
  cache := h.cache
  calls := own_update h.calls trivial
  outcomes := right_cons h.outcomes hright

end

section
variable {refreshMargin : ℚ} {s s' : World} {t : Thread} {call : Call} {cached : Option Cred}

theorem sound_look (h : Sound s) (hphase : s.calls t = .begun call) :
    Sound (s.look refreshMargin t call) := by
  unfold World.look
  cases hcache : s.cache call.operation with
  | none =>
    apply h.enter
    · rw [hphase]
      rfl
    · exact fun c hc => nomatch hc
  | some c =>
    dsimp only
    have hown := (h.cache call.operation c hcache).1
    split_ifs
    · apply h.finish
      · rw [hphase]
        rfl
      · exact hown
    · apply h.enter
      · rw [hphase]
        rfl
      · intro c' hc'
        cases hc'
        exact hown

theorem sound_lock {usable : Bool} (h : Sound s) (hphase : s.calls t = .looked call cached usable)
    (hlock : s.lock t call cached usable = some s') : Sound s' := by
  have hown : ∀ c ∈ cached, c.operation = call.operation := by
    have := h.calls t
    rwa [hphase] at this
  unfold World.lock at hlock
  split at hlock
  · rename_i hfree
    cases hlock
    exact ⟨h.locks.take hfree rfl, h.cache, own_update h.calls hown, h.outcomes⟩
  · rename_i c _
    cases hlock
    apply h.finish
    · rw [hphase]
      rfl
    · exact hown c rfl
  · cases hlock

theorem sound_recheck (h : Sound s) (hphase : s.calls t = .locked call cached) :
    Sound (s.recheck refreshMargin t call cached) := by
  have hown : ∀ c ∈ cached, c.operation = call.operation := by
    have := h.calls t
    rwa [hphase] at this
  have hheld : (s.calls t).lockOf = some call.operation := by
    rw [hphase]
    rfl
  unfold World.recheck
  cases hcache : s.cache call.operation with
  | none => exact h.enter hheld.symm hown
  | some current =>
    dsimp only
    split_ifs
    · exact h.release hheld (h.cache call.operation current hcache).1
    · exact h.enter hheld.symm hown

theorem sound_answer {requested : Nat} (h : Sound s)
    (hphase : s.calls t = .vending call cached requested) (result : Option (Option ℚ)) :
    Sound (s.answer t call cached requested result) := by
  have hown : ∀ c ∈ cached, c.operation = call.operation := by
    have := h.calls t
    rwa [hphase] at this
  have hheld : (s.calls t).lockOf = some call.operation := by
    rw [hphase]
    rfl
  have hfailed : Sound { s with failed := call.id :: s.failed } := by
    refine ⟨h.locks, h.cache, h.calls, fun o ho => ?_⟩
    have hright := h.outcomes o ho
    cases o with
    | answered => exact hright
    | raised => exact ⟨List.mem_cons_of_mem _ hright.1, hright.2⟩
  unfold World.answer
  cases result with
  | some expiresAt =>
    have hnext : Sound (s.enter t
        (.vended call ⟨s.vends, call.operation, expiresAt, requested, s.clock⟩)) :=
      h.enter hheld.symm rfl
    exact ⟨hnext.locks, hnext.cache, hnext.calls, hnext.outcomes⟩
  | none =>
    dsimp only
    cases cached with
    | none =>
      refine hfailed.release hheld ⟨List.mem_cons_self, ?_⟩
      exact fun c hc => nomatch hc
    | some c =>
      dsimp only
      split_ifs with hexpired
      · refine hfailed.release hheld ⟨List.mem_cons_self, ?_⟩
        intro c' hc'
        cases hc'
        exact hexpired
      · exact hfailed.enter hheld.symm (hown c rfl)

theorem sound_store {fresh : Cred} (h : Sound s) (hphase : s.calls t = .vended call fresh) :
    Sound (s.store t call fresh) := by
  have hown : fresh.operation = call.operation := by
    have := h.calls t
    rwa [hphase] at this
  have hheld : (s.calls t).lockOf = some call.operation := by
    rw [hphase]
    rfl
  have hnext : Sound ((s.finish t
      (.answered call { fresh with arrived := s.clock } s.clock)).release call.operation) :=
    h.release hheld hown
  refine ⟨hnext.locks, ?_, hnext.calls, hnext.outcomes⟩
  intro operation c hc
  change c ∈ Function.update s.cache call.operation (some _) operation at hc
  change c.operation = operation ∧
    Function.update s.vendedAt call.operation (some s.clock) operation = some c.arrived ∧
    Function.update s.skewed call.operation _ operation = c.isExpired c.arrived
  by_cases hoperation : operation = call.operation
  · subst hoperation
    rw [Function.update_self] at hc
    cases hc
    rw [Function.update_self, Function.update_self]
    exact ⟨hown, rfl, rfl⟩
  · rw [Function.update_of_ne hoperation] at hc
    rw [Function.update_of_ne hoperation, Function.update_of_ne hoperation]
    exact h.cache operation c hc

/-- Every action keeps the invariant. -/
theorem sound_next {a : Action} (h : Sound s) (hnext : s.next refreshMargin a = some s') :
    Sound s' := by
  cases a with
  | begin t operation =>
    simp only [World.next] at hnext
    split at hnext
    · rename_i hphase
      cases hnext
      have hsound : Sound (s.enter t (.begun ⟨s.begun, operation, s.invalidations⟩)) :=
        h.enter (by rw [hphase]; rfl) trivial
      exact ⟨hsound.locks, hsound.cache, hsound.calls, hsound.outcomes⟩
    · cases hnext
  | look t =>
    simp only [World.next] at hnext
    split at hnext
    · rename_i hphase
      cases hnext
      exact sound_look h hphase
    · cases hnext
  | lock t =>
    simp only [World.next] at hnext
    split at hnext
    · rename_i hphase
      exact sound_lock h hphase hnext
    · cases hnext
  | recheck t =>
    simp only [World.next] at hnext
    split at hnext
    · rename_i hphase
      cases hnext
      exact sound_recheck h hphase
    · cases hnext
  | request t =>
    simp only [World.next] at hnext
    split at hnext
    · rename_i call cached hphase
      cases hnext
      have hown : ∀ c ∈ cached, c.operation = call.operation := by
        have := h.calls t
        rwa [hphase] at this
      exact h.enter (by rw [hphase]; rfl) hown
    · cases hnext
  | answer t result =>
    simp only [World.next] at hnext
    split at hnext
    · rename_i hphase
      cases hnext
      exact sound_answer h hphase result
    · cases hnext
  | store t =>
    simp only [World.next] at hnext
    split at hnext
    · rename_i hphase
      cases hnext
      exact sound_store h hphase
    · cases hnext
  | backOff t =>
    simp only [World.next] at hnext
    split at hnext
    · rename_i call cached hphase
      cases hnext
      have hown : cached.operation = call.operation := by
        have := h.calls t
        rwa [hphase] at this
      have hsound : Sound ((s.finish t (.answered call cached s.clock)).release
          call.operation) :=
        h.release (by rw [hphase]; rfl) hown
      exact ⟨hsound.locks, hsound.cache, hsound.calls, hsound.outcomes⟩
    · cases hnext
  | invalidate =>
    cases hnext
    exact ⟨h.locks, (fun operation c hc => nomatch hc), h.calls, h.outcomes⟩
  | tick elapsed =>
    simp only [World.next] at hnext
    split_ifs at hnext
    cases hnext
    exact ⟨h.locks, h.cache, h.calls, h.outcomes⟩

theorem sound_start (clock : ℚ) : Sound (.start clock) where
  locks := fun _ _ hlock => nomatch hlock
  cache := fun _ _ hc => nomatch hc
  calls := fun _ => trivial
  outcomes := fun _ ho => nomatch ho

theorem Sound.oneVend (h : Sound s) : OneVend s := by
  have hlocked : ∀ t operation, (s.calls t).vendOf = some operation →
      s.vendLock operation = some t := by
    intro t operation hvend
    apply h.locks
    cases hphase : s.calls t with
    | vending => rwa [hphase] at hvend
    | idle | begun | looked | locked | unserved | vended | fallback =>
      rw [hphase] at hvend
      cases hvend
  intro t t' operation hvend hvend'
  exact Option.some.inj ((hlocked t operation hvend).symm.trans (hlocked t' operation hvend'))

theorem noWait (refreshMargin : ℚ) (s : World) : NoWait refreshMargin s where
  look t call cached hphase hcache husable := by
    refine ⟨s.look refreshMargin t call, ?_, ?_⟩
    · simp only [World.next, hphase]
    · unfold World.look
      rw [hcache]
      dsimp only
      split_ifs
      · exact .inl rfl
      · right
        rw [calls_enter, Function.update_self, husable]
        rfl
  lock t call cached hphase := by
    simp only [World.next, hphase, World.lock]
    cases s.vendLock call.operation with
    | none => exact ⟨_, rfl, fun h => absurd rfl h⟩
    | some t' => exact ⟨_, rfl, fun _ => rfl⟩

end

end DeltaSwamp.Vending
