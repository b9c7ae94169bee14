import DeltaSwamp.Run

/-!
# Rolling back a create

The storage requests of `rollback_create`, between the head and the put of any number of
`commit_raw` calls on the same log.
-/

namespace DeltaSwamp.Creating.Rollback

/-- A commit in the log, with how often version 0 had been written when its writer looked for its
predecessor. -/
structure Entry (Body : Type) where
  body : Body
  base : Nat

/-- Where a `commit_raw` is. -/
inductive Writer where
  | idle
  /-- About to put a version; its predecessor, if it needs one, was there. -/
  | checked (version base : Nat)

/-- Where `rollback_create` is. -/
inductive Phase where
  | begun
  /-- Version 1 was not there. -/
  | unfollowed
  /-- Version 0 is the table's own. -/
  | owned
  | deleted
  | done
  deriving DecidableEq

structure World (Body : Type) where
  log : Nat → Option (Entry Body)
  /-- How often version 0 was written. -/
  created : Nat
  writers : Nat → Writer
  phase : Phase
  /-- What `created` was when version 0 was deleted. -/
  deletedAt : Option Nat

inductive Request (Body : Type) where
  /-- `commit_raw` of version 0 looks for nothing. -/
  | beginFirst (w : Nat)
  /-- `commit_raw` looks for the version before the one after `version`. -/
  | headPrevious (w version : Nat)
  | put (w : Nat) (body : Body)
  /-- A request of a writer that fails. -/
  | fail (w : Nat)
  | headSecond
  | getFirst
  | deleteFirst
  | deleteChecksum
  /-- A request of the rollback that fails. -/
  | abort

namespace World

variable {Body : Type} (s : World Body)

def setWriter (w : Nat) (writer : Writer) : World Body :=
  { s with writers := Function.update s.writers w writer }

/-- A put of a version that is not there. -/
def landed (w version base : Nat) (body : Body) : World Body :=
  { s with
    log := Function.update s.log version (some ⟨body, base⟩)
    created := if version = 0 then s.created + 1 else s.created
    writers := Function.update s.writers w .idle }

/-- One request and its answer; `isMetadataOf` of a body. -/
def next (isMetadataOf : Body → Bool) : Request Body → Option (World Body)
  | .beginFirst w => some (s.setWriter w (.checked 0 s.created))
  | .headPrevious w version =>
    some (s.setWriter w
      (if (s.log version).isSome then .checked (version + 1) s.created else .idle))
  | .put w body =>
    match s.writers w with
    | .idle => none
    | .checked version base =>
      match s.log version with
      | some _ => some (s.setWriter w .idle)
      | none => some (s.landed w version base body)
  | .fail w => some (s.setWriter w .idle)
  | .headSecond =>
    if s.phase = .begun then
      some { s with phase := if (s.log 1).isSome then .done else .unfollowed }
    else none
  | .getFirst =>
    if s.phase = .unfollowed then
      some { s with phase := if (s.log 0).any (isMetadataOf ·.body) then .owned else .done }
    else none
  | .deleteFirst =>
    if s.phase = .owned then
      some { s with
        log := Function.update s.log 0 none
        phase := .deleted
        deletedAt := some s.created }
    else none
  | .deleteChecksum => if s.phase = .deleted then some { s with phase := .done } else none
  | .abort => some { s with phase := .done }

/-- No version is there without its predecessor. -/
def Gapless : Prop := ∀ version, (s.log (version + 1)).isSome = true → (s.log version).isSome = true

/-- Once version 0 is deleted, the later versions are on top of another one. -/
def Unorphaned : Prop :=
  ∀ deletedAt, s.deletedAt = some deletedAt → ∀ version e, s.log (version + 1) = some e →
    deletedAt < e.base

/-- Version 0 is deleted while nothing follows it and no writer that saw it is about to. -/
def Unfollowed : Request Body → Prop
  | .deleteFirst => s.log 1 = none ∧ ∀ w base, s.writers w ≠ .checked 1 base
  | _ => True

/-- The log before the rollback. -/
structure Before : Prop where
  gapless : s.Gapless
  writers : ∀ w, s.writers w = .idle
  phase : s.phase = .begun
  deletedAt : s.deletedAt = none

/-- What a run keeps. -/
structure Kept : Prop where
  gapless : s.Gapless
  unorphaned : s.Unorphaned
  checked : ∀ w version base, s.writers w = .checked (version + 1) base →
    (s.log version).isSome = true ∧ ∀ deletedAt, s.deletedAt = some deletedAt → deletedAt < base
  recreated : ∀ deletedAt, s.deletedAt = some deletedAt →
    deletedAt ≤ s.created ∧ ((s.log 0).isSome = true → deletedAt < s.created)

variable {s}

theorem Gapless.first (h : s.Gapless) {version : Nat} (hsome : (s.log version).isSome = true) :
    (s.log 0).isSome = true := by
  induction version with
  | zero => exact hsome
  | succ version ih => exact ih (h version hsome)

theorem Before.kept (h : s.Before) : s.Kept where
  gapless := h.gapless
  unorphaned deletedAt hdeleted := by rw [h.deletedAt] at hdeleted; cases hdeleted
  checked w version base hw := by rw [h.writers w] at hw; cases hw
  recreated deletedAt hdeleted := by rw [h.deletedAt] at hdeleted; cases hdeleted

theorem Kept.setWriter (h : s.Kept) {w : Nat} {writer : Writer}
    (hwriter : ∀ version base, writer = .checked (version + 1) base →
      (s.log version).isSome = true ∧ base = s.created) : (s.setWriter w writer).Kept where
  gapless := h.gapless
  unorphaned := h.unorphaned
  recreated := h.recreated
  checked := by
    intro other version base hother
    simp only [World.setWriter, Function.update_apply] at hother
    split_ifs at hother with hw
    · obtain ⟨hsome, hbase⟩ := hwriter version base hother
      refine ⟨hsome, fun deletedAt hdeleted => ?_⟩
      rw [hbase]
      exact (h.recreated deletedAt hdeleted).2 (h.gapless.first hsome)
    · exact h.checked other version base hother

theorem Kept.landed (h : s.Kept) {w version base : Nat} {body : Body}
    (hw : s.writers w = .checked version base) (hnone : s.log version = none) :
    (s.landed w version base body).Kept where
  gapless := by
    intro v hv
    simp only [World.landed, Function.update_apply] at hv ⊢
    by_cases hself : v = version
    · rw [if_pos hself]
      rfl
    · rw [if_neg hself]
      split_ifs at hv with hafter
      · subst hafter
        exact (h.checked w v base hw).1
      · exact h.gapless v hv
  unorphaned := by
    intro deletedAt hdeleted v e he
    simp only [World.landed, Function.update_apply] at he hdeleted
    split_ifs at he with hsame
    · subst hsame
      cases he
      exact (h.checked w v base hw).2 deletedAt hdeleted
    · exact h.unorphaned deletedAt hdeleted v e he
  checked := by
    intro other v base' hother
    simp only [World.landed, Function.update_apply] at hother ⊢
    split_ifs at hother with hidle
    obtain ⟨hsome, hbase⟩ := h.checked other v base' hother
    refine ⟨?_, hbase⟩
    split_ifs
    · rfl
    · exact hsome
  recreated := by
    intro deletedAt hdeleted
    simp only [World.landed, Function.update_apply] at hdeleted ⊢
    obtain ⟨hle, hlt⟩ := h.recreated deletedAt hdeleted
    by_cases hzero : version = 0
    · rw [if_pos hzero]
      exact ⟨by omega, fun _ => by omega⟩
    · rw [if_neg hzero, if_neg (Ne.symm hzero)]
      exact ⟨hle, hlt⟩

theorem Kept.deleted (h : s.Kept) (hunfollowed : s.Unfollowed .deleteFirst) :
    Kept { s with
      log := Function.update s.log 0 none
      phase := .deleted
      deletedAt := some s.created } := by
  have hempty : ∀ version, s.log (version + 1) = none := by
    intro version
    induction version with
    | zero => exact hunfollowed.1
    | succ version ih =>
      by_contra hsome
      have hbelow := h.gapless (version + 1) (Option.isSome_iff_ne_none.mpr hsome)
      rw [ih] at hbelow
      cases hbelow
  constructor
  case gapless =>
    intro version hsome
    simp [hempty version] at hsome
  case unorphaned =>
    intro deletedAt _ version e he
    simp [hempty version] at he
  case checked =>
    intro w version base hw
    cases version with
    | zero => exact absurd hw (hunfollowed.2 w base)
    | succ version =>
      have hsome := (h.checked w (version + 1) base hw).1
      rw [hempty version] at hsome
      cases hsome
  case recreated =>
    intro deletedAt hdeleted
    cases hdeleted
    exact ⟨le_rfl, fun hsome => by simp at hsome⟩

theorem Kept.phase (h : s.Kept) (phase : Phase) : Kept { s with phase := phase } :=
  ⟨h.gapless, h.unorphaned, h.checked, h.recreated⟩

theorem kept_next {isMetadataOf : Body → Bool} {t : World Body} {request : Request Body}
    (h : s.Kept) (hok : s.Unfollowed request) (hnext : s.next isMetadataOf request = some t) :
    t.Kept := by
  cases request with
  | beginFirst w =>
    cases hnext
    exact h.setWriter fun version base heq => by cases heq
  | headPrevious w version =>
    cases hnext
    refine h.setWriter fun v base heq => ?_
    split_ifs at heq with hsome
    cases heq
    exact ⟨hsome, rfl⟩
  | put w body =>
    simp only [World.next] at hnext
    split at hnext
    · cases hnext
    · rename_i version base hw
      split at hnext
      · cases hnext
        exact h.setWriter fun v b heq => by cases heq
      · rename_i hnone
        cases hnext
        exact h.landed hw hnone
  | fail w =>
    cases hnext
    exact h.setWriter fun version base heq => by cases heq
  | deleteFirst =>
    simp only [World.next] at hnext
    split_ifs at hnext
    cases hnext
    exact h.deleted hok
  | headSecond | getFirst | deleteChecksum =>
    simp only [World.next] at hnext
    split_ifs at hnext
    all_goals
      cases hnext
      exact h.phase _
  | abort =>
    cases hnext
    exact h.phase _

/-- In every interleaving in which version 0 is deleted while nothing follows it and no writer that
saw it is about to, no version is ever there without its predecessor or on top of the deleted
one. -/
theorem rollback_orphans_none (isMetadataOf : Body → Bool) {start : World Body}
    (hstart : start.Before) (s : World Body)
    (hrun : Run (World.next · isMetadataOf) World.Unfollowed start s) :
    s.Gapless ∧ s.Unorphaned := by
  have hkept : s.Kept := hrun.invariant hstart.kept fun _ _ _ h hok hnext => kept_next h hok hnext
  exact ⟨hkept.gapless, hkept.unorphaned⟩

/-- A log of version 0 only, the table's own. -/
def fresh : World Bool where
  log version := if version = 0 then some ⟨true, 0⟩ else none
  created := 1
  writers _ := .idle
  phase := .begun
  deletedAt := none

theorem fresh_before : fresh.Before where
  gapless version h := by simp [fresh] at h
  writers _ := rfl
  phase := rfl
  deletedAt := rfl

/-- The rollback runs to its end, then version 0 and version 1 are written anew. -/
def rolledBack : World Bool where
  log := Function.update (Function.update (Function.update fresh.log 0 none) 0 (some ⟨true, 1⟩)) 1
    (some ⟨true, 2⟩)
  created := 2
  writers := Function.update (Function.update (Function.update (Function.update fresh.writers 0
    (.checked 0 1)) 0 .idle) 1 (.checked 1 2)) 1 .idle
  phase := .deleted
  deletedAt := some 1

theorem rollback_orphans_none_fresh : rolledBack.Gapless ∧ rolledBack.Unorphaned := by
  apply rollback_orphans_none id fresh_before
  have hread : Run (World.next · id) World.Unfollowed fresh { fresh with phase := .owned } :=
    .step (.step .refl (e := .headSecond) trivial rfl) (e := .getFirst) trivial rfl
  have hunfollowed : Unfollowed { fresh with phase := .owned } .deleteFirst :=
    ⟨rfl, fun _ _ hw => by cases hw⟩
  exact .step (.step (.step (.step (.step hread hunfollowed rfl) (e := .beginFirst 0) trivial rfl)
    (e := .put 0 true) trivial rfl) (e := .headPrevious 1 0) trivial rfl) (e := .put 1 true)
    trivial rfl

/-- A writer that finds version 0 after the rollback has found no version 1 may land version 1
before version 0 is deleted, or after. -/
theorem rollback_leaves_gap :
    (∃ s, Run (World.next · id) (fun _ _ => True) fresh s ∧ s.phase = .deleted ∧ ¬ s.Gapless) ∧
    ∃ s, Run (World.next · id) (fun _ _ => True) fresh s ∧ s.phase = .done ∧ ¬ s.Gapless := by
  have hgap : ∀ s : World Bool, s.log 0 = none → (s.log 1).isSome = true → ¬ s.Gapless := by
    intro s hnone hsome hgapless
    have hfirst := hgapless 0 hsome
    rw [hnone] at hfirst
    cases hfirst
  constructor
  · let requests : List (Request Bool) :=
      [.headSecond, .headPrevious 0 0, .put 0 false, .getFirst, .deleteFirst]
    cases hreplay : replay (World.next · id) (fun _ _ => True) fresh requests with
    | none => cases hreplay
    | some s =>
      have hrun := Run.of_replay hreplay
      cases hreplay
      exact ⟨_, hrun, rfl, hgap _ rfl rfl⟩
  · let requests : List (Request Bool) :=
      [.headSecond, .getFirst, .headPrevious 0 0, .deleteFirst, .put 0 false, .deleteChecksum]
    cases hreplay : replay (World.next · id) (fun _ _ => True) fresh requests with
    | none => cases hreplay
    | some s =>
      have hrun := Run.of_replay hreplay
      cases hreplay
      exact ⟨_, hrun, rfl, hgap _ rfl rfl⟩

end World

end DeltaSwamp.Creating.Rollback
