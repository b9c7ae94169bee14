import DeltaSwamp.Creating.Sound

/-!
# All or nothing

What a creating write leaves of the log, whatever its calls meet.
-/

namespace DeltaSwamp.Creating

section
variable (layoutStillFits : Text → Text → Bool) (plan : Plan)

/-- At most one version adds the files, just one if a call returned it; each version that does was
committed onto a table they suit; no file that was deleted is added; no version follows a version 0
that was removed; and a commit that failed for certain leaves no version 0 of the plan's alone. -/
structure Whole (s : World) : Prop where
  once : plan.load = .files → ownVersions s.later ≤ 1
  returned : ∀ version, s.phase = .returned version false → plan.load = .files →
    ownVersions s.later = 1
  joined : ∀ i e, s.later[i]? = some e → e.own = true →
    ∃ current, metadataAt s.zero (s.later.take i) = some current ∧
      (current.identity = plan.metadata.identity ∨ plan.mode = .append) ∧
      fits layoutStillFits plan current = true
  kept : s.deleted = true → plan.load = .files → ownVersions s.later = 0
  headed : s.zero = none → s.later = []
  followed : ∀ table, s.phase = .failed table → s.zero = some plan.metadata → s.later ≠ []

/-- A version 0 stays as it is, or was the plan's and alone and is removed. -/
def ZeroKept (s t : World) : Prop :=
  ∀ first, s.zero = some first → t.zero = some first ∨
    t.zero = none ∧ first = plan.metadata ∧ s.later = []

end

section
variable {layoutStillFits : Text → Text → Bool} {plan : Plan} {s t : World}

theorem sound_start : Sound layoutStillFits plan World.start where
  headed _ := rfl
  first _ hnone := nomatch hnone
  placed _ hmem := (List.not_mem_nil hmem).elim
  once _ := Nat.zero_le _
  «open» _ _ hmem := (List.not_mem_nil hmem).elim
  joined _ _ hnone := nomatch hnone
  gone hdeleted := nomatch hdeleted
  looked hlooked := nomatch hlooked
  phase := trivial

theorem Sound.whole (h : Sound layoutStillFits plan s) : Whole layoutStillFits plan s where
  once := h.once
  returned version hphase hfiles := by
    have hsound := h.phase
    rw [hphase] at hsound
    exact Nat.le_antisymm (h.once hfiles) (hsound hfiles)
  joined := h.joined
  kept hdeleted := (h.gone hdeleted).1
  headed := h.headed
  followed table hphase hzero := by
    have hsound := h.phase
    rw [hphase] at hsound
    rcases hsound.2 with hnonempty | ⟨-, first, hfirst, hforeign⟩
    · exact hnonempty
    · rw [hzero, Option.some.injEq] at hfirst
      exact absurd (congrArg Metadata.identity hfirst.symm) hforeign

theorem zero_advance (h : advance layoutStillFits plan s = some t) : t.zero = s.zero := by
  unfold advance at h
  repeat' split at h
  all_goals first
    | (cases h; rfl)
    | cases h

theorem zero_answered {answer : Answer} (h : answered plan s answer = some t) :
    t.zero = s.zero := by
  unfold answered at h
  repeat' split at h
  all_goals first
    | (cases h; rfl)
    | cases h

theorem zeroKept_next {e : Event} (h : Sound layoutStillFits plan s)
    (hnext : next layoutStillFits plan s e = some t) : ZeroKept plan s t := by
  intro first hzero
  have hsame : t.zero = s.zero → t.zero = some first ∨
      t.zero = none ∧ first = plan.metadata ∧ s.later = [] :=
    fun heq => .inl (heq.trans hzero)
  cases e with
  | create metadata =>
    simp only [next] at hnext
    split_ifs at hnext with hfree
    rw [hfree.1] at hzero
    cases hzero
  | landZero =>
    simp only [next] at hnext
    split_ifs at hnext with hfree
    rw [hfree.1] at hzero
    cases hzero
  | delete =>
    have hphase := h.phase
    simp only [next, deletes] at hnext
    split at hnext
    · cases hnext
      exact hsame rfl
    · cases hnext
      exact hsame rfl
    · cases hnext
      exact hsame rfl
    · rename_i heq
      rw [heq] at hphase
      obtain ⟨-, hours, hempty⟩ := hphase
      cases hnext
      rw [hzero, Option.map_some, Option.some.injEq] at hours
      exact .inr ⟨rfl, h.first first hzero hours, hempty⟩
    · cases hnext
  | go => exact hsame (zero_advance hnext)
  | answer answer => exact hsame (zero_answered hnext)
  | send | skip =>
    simp only [next] at hnext
    split at hnext <;> cases hnext <;> exact hsame rfl
  | write stale metadata =>
    simp only [next] at hnext
    split_ifs at hnext <;> cases hnext <;> exact hsame rfl
  | land version | commit args | abort | raise =>
    simp only [next] at hnext
    split_ifs at hnext
    cases hnext
    exact hsame rfl

/-- Through every run whose steps meet the condition. -/
theorem created_whole (hplanned : Planned layoutStillFits plan)
    (hrun : Run (next layoutStillFits plan) (fun s e => allowed layoutStillFits plan s e = true)
      World.start s) :
    Whole layoutStillFits plan s ∧
      ∀ e t, next layoutStillFits plan s e = some t → ZeroKept plan s t := by
  have hsound : Sound layoutStillFits plan s :=
    hrun.invariant sound_start fun _ _ _ h hok hnext => sound_next hplanned h hok hnext
  exact ⟨hsound.whole, fun _ _ hnext => zeroKept_next hsound hnext⟩

end

def sameLayout (written current : Text) : Bool := written = current

/-- One file of one layout, to append. -/
def appending : Plan := ⟨.append, ⟨0, ['a']⟩, .files, [['a']], false⟩

/-- The put of version 1 is applied after its call was told of a time-out; the next finds it. -/
def landsLate : List Event :=
  [.commit ⟨0, true⟩, .send, .landZero, .answer .accepted, .go, .go, .go, .send,
    .answer .transient, .land 1, .commit ⟨0, true⟩, .send, .answer .conflict, .go, .go, .go]

theorem created_whole_landsLate : ∃ s : World, s.phase = .returned 1 false ∧
    Whole sameLayout appending s := by
  have hreplay : (replay (next sameLayout appending)
      (fun s e => allowed sameLayout appending s e = true) World.start landsLate).map
        World.phase = some (.returned 1 false) := by
    decide +kernel
  obtain ⟨s, hs, hphase⟩ := Option.map_eq_some_iff.mp hreplay
  exact ⟨s, hphase,
    (created_whole (show Planned sameLayout appending from rfl) (Run.of_replay hs)).1⟩

/-- Another writer's table takes version 1 before the files; they are deleted, and the fragments
are committed once more. -/
def commitsDeleted : List Event :=
  [.create ⟨1, ['a']⟩, .commit ⟨0, true⟩, .send, .answer .conflict, .go, .go, .go, .go,
    .write false none, .send, .answer .conflict, .go, .go, .delete,
    .commit ⟨0, true⟩, .send, .answer .conflict, .go, .go, .go, .go, .send, .land 2]

/-- Another writer commits version 1 once the abort has found none. -/
def followsRemoved : List Event :=
  [.commit ⟨0, true⟩, .send, .landZero, .answer .accepted, .raise, .abort, .go, .go, .go, .delete,
    .go, .go, .write false none, .delete]

/-- The abort finds no version that adds the files, deletes them, and then the put that timed out
is applied. -/
def landsAfterAbort : List Event :=
  [.commit ⟨0, true⟩, .send, .landZero, .answer .accepted, .go, .go, .go, .send,
    .answer .transient, .abort, .go, .go, .go, .delete, .land 1]

theorem created_not_whole :
    (∃ s : World, Run (next sameLayout appending) (fun _ _ => True) World.start s ∧
      s.deleted = true ∧ ownVersions s.later = 1) ∧
    (∃ s : World, Run (next sameLayout appending) (fun _ _ => True) World.start s ∧
      s.removed = true ∧ s.zero = none ∧ s.later ≠ []) ∧
    ∃ s : World, (replay (next sameLayout appending) (fun _ _ => True) World.start
      landsAfterAbort) = some s ∧ s.deleted = true ∧ ownVersions s.later = 1 := by
  refine ⟨?_, ?_, ?_⟩
  · have hreplay : (replay (next sameLayout appending) (fun _ _ => True) World.start
        commitsDeleted).map (fun s => (s.deleted, ownVersions s.later)) = some (true, 1) := by
      decide +kernel
    obtain ⟨s, hs, hstate⟩ := Option.map_eq_some_iff.mp hreplay
    obtain ⟨hdeleted, hadded⟩ := Prod.mk.inj hstate
    exact ⟨s, Run.of_replay hs, hdeleted, hadded⟩
  · have hreplay : (replay (next sameLayout appending) (fun _ _ => True) World.start
        followsRemoved).map (fun s => (s.removed, s.zero, s.later)) =
          some (true, none, [⟨false, none⟩]) := by
      decide +kernel
    obtain ⟨s, hs, hstate⟩ := Option.map_eq_some_iff.mp hreplay
    obtain ⟨hremoved, hrest⟩ := Prod.mk.inj hstate
    obtain ⟨hzero, hlater⟩ := Prod.mk.inj hrest
    exact ⟨s, Run.of_replay hs, hremoved, hzero, by simp [hlater]⟩
  · have hreplay : (replay (next sameLayout appending) (fun _ _ => True) World.start
        landsAfterAbort).map (fun s => (s.deleted, ownVersions s.later)) = some (true, 1) := by
      decide +kernel
    obtain ⟨s, hs, hstate⟩ := Option.map_eq_some_iff.mp hreplay
    obtain ⟨hdeleted, hadded⟩ := Prod.mk.inj hstate
    exact ⟨s, hs, hdeleted, hadded⟩

end DeltaSwamp.Creating
