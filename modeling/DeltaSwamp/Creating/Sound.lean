import DeltaSwamp.Creating.Plan

/-!
# What every step keeps

A put of the files can take effect only on the snapshot it was built on: until then its version is
the next one, and once another version has taken its place it is lost.
-/

namespace DeltaSwamp.Creating

open List

section
variable (layoutStillFits : Text → Text → Bool) (plan : Plan)

/-- Version 0 is about to be removed: `rollback_create` found no version 1. -/
def World.undoing (s : World) : Bool :=
  (s.phase = .rollbackRead || s.phase = .rollbackDelete) &&
    s.zero.map Metadata.identity = some plan.metadata.identity

/-- A commit of the files would be built on the snapshot. -/
def builds (s : World) (table : Nat) : Bool :=
  s.current.any fun current => current.identity = table && fits layoutStillFits plan current

/-- The files are not committed again once a call has deleted them, and no put of them takes effect
once the abort has seen that no version adds them; where a commit is built, no version after the
ones its landed check read adds them; and no other writer commits onto a version 0 of the plan's
while it is being removed, or has been. -/
def allowed (s : World) : Event → Bool
  | .commit _ => !s.deleted
  | .land _ => !s.looked
  | .write stale _ => !stale && !s.undoing plan
  | .go =>
    match s.phase with
    | .resolve _ table checked =>
      plan.load ≠ .files || !builds layoutStillFits plan s table ||
        ownVersions (s.later.drop checked) = 0
    | _ => true
  | _ => true

/-- No put of the files can take effect any more. -/
def Lost (s : World) : Prop := ∀ version ∈ s.sent, version ≤ s.later.length

def Unadded (s : World) : Prop := plan.load = .files → ownVersions s.later = 0

/-- A table the files may be added to: the plan's own, or under `append` another writer's. -/
def Suits (current : Metadata) : Prop :=
  (current.identity = plan.metadata.identity ∨ plan.mode = .append) ∧
    fits layoutStillFits plan current = true

/-- The next version may add the files. -/
def Open (s : World) : Prop :=
  (∃ current, s.current = some current ∧ Suits layoutStillFits plan current) ∧ Unadded plan s

/-- The files are there, and no abort is under way. -/
def Going (s : World) : Prop := s.deleted = false ∧ s.looked = false

/-- The ids of the tables a commit may be for. -/
def Target (table : Nat) : Prop := table = plan.metadata.identity ∨ plan.mode = .append

/-- The plan's version 0 is not the only version. -/
def Followed (s : World) (table : Nat) : Prop :=
  s.later ≠ [] ∨ table ≠ plan.metadata.identity ∧
    ∃ first, s.zero = some first ∧ first.identity ≠ plan.metadata.identity

def PhaseSound (s : World) : Phase → Prop
  | .publish | .publishing | .opened => Going s
  | .joining _ _ => Going s ∧ (plan.mode = .append ∨ Lost s)
  | .dropping _ => Lost s
  | .dropped _ => Lost s ∧ Unadded plan s
  | .attempt _ table => Going s ∧ Target plan table
  | .resolve _ table checked => Going s ∧ Target plan table ∧ checked ≤ s.later.length ∧
      (plan.load = .files → ownVersions (s.later.take checked) = 0)
  | .ready _ table version => Going s ∧ Target plan table ∧ 1 ≤ version ∧
      version ≤ s.later.length + 1 ∧ (∀ other ∈ s.sent, other ≤ version) ∧
      (version = s.later.length + 1 → Open layoutStillFits plan s)
  | .sent _ table version => Going s ∧ Target plan table ∧ 1 ≤ version ∧
      ∀ other ∈ s.sent, other ≤ version
  | .failed table | .aborting table false => Lost s ∧ Followed plan s table
  | .deleting table false => Lost s ∧ Followed plan s table ∧ Unadded plan s
  | .deleting _ true | .erasing => s.looked = true ∧ Unadded plan s
  | .rollback => s.looked = true ∨ s.later ≠ []
  | .rollbackRead => s.looked = true ∧
      ∀ first, s.zero = some first → first.identity = plan.metadata.identity → s.later = []
  | .rollbackDelete => s.looked = true ∧
      s.zero.map Metadata.identity = some plan.metadata.identity ∧ s.later = []
  | .landed _ | .returned _ false => plan.load = .files → 1 ≤ ownVersions s.later
  | .look | .reopen | .aborting _ true => s.aborted = true
  | _ => True

structure Sound (s : World) : Prop where
  headed : s.zero = none → s.later = []
  first : ∀ first, s.zero = some first → first.identity = plan.metadata.identity →
    first = plan.metadata
  placed : ∀ version ∈ s.sent, 1 ≤ version ∧ version ≤ s.later.length + 1
  once : plan.load = .files → ownVersions s.later ≤ 1
  «open» : s.looked = false → ∀ version ∈ s.sent, version = s.later.length + 1 →
    Open layoutStillFits plan s
  joined : ∀ i e, s.later[i]? = some e → e.own = true →
    ∃ current, metadataAt s.zero (s.later.take i) = some current ∧
      Suits layoutStillFits plan current
  gone : s.deleted = true → Unadded plan s ∧ (Lost s ∨ s.looked = true)
  looked : s.looked = true → s.aborted = true
  phase : PhaseSound layoutStillFits plan s s.phase

end

section
variable {layoutStillFits : Text → Text → Bool} {plan : Plan} {s t : World}

@[simp] theorem ownVersions_append (later later' : List Entry) :
    ownVersions (later ++ later') = ownVersions later + ownVersions later' :=
  countP_append

theorem ownVersions_other (metadata : Option Metadata) : ownVersions [⟨false, metadata⟩] = 0 := rfl

theorem ownVersions_own (metadata : Option Metadata) : ownVersions [⟨true, metadata⟩] = 1 := rfl

theorem Lost.mono (h : Lost s) (hsent : t.sent = s.sent)
    (hlater : s.later.length ≤ t.later.length) :
    Lost t := by
  intro version hversion
  rw [hsent] at hversion
  exact (h version hversion).trans hlater

variable {table : Nat}

theorem Followed.undo (h : Followed plan s table) (hours : table = plan.metadata.identity) :
    s.looked = true ∨ s.later ≠ [] :=
  .inr (h.resolve_right fun hforeign => hforeign.1 hours)

theorem current_eq_none : s.current = none ↔ s.zero = none := by
  rw [World.current, metadataAt, Option.map_eq_none_iff]

variable {phase : Phase}

theorem phaseSound_to {phase' : Phase} :
    PhaseSound layoutStillFits plan (s.to phase') phase ↔
      PhaseSound layoutStillFits plan s phase := by
  cases phase with
  | aborting table final => cases final <;> exact Iff.rfl
  | deleting table final => cases final <;> exact Iff.rfl
  | returned version kept => cases kept <;> exact Iff.rfl
  | _ => exact Iff.rfl

theorem Sound.to (h : Sound layoutStillFits plan s)
    (hphase : PhaseSound layoutStillFits plan s phase) : Sound layoutStillFits plan (s.to phase) :=
  ⟨h.headed, h.first, h.placed, h.once, h.open, h.joined, h.gone, h.looked,
    phaseSound_to.mpr hphase⟩

theorem Sound.look (h : Sound layoutStillFits plan s) (haborted : s.aborted = true)
    (hphase : PhaseSound layoutStillFits plan { s with looked := true } phase) :
    Sound layoutStillFits plan { s with looked := true, phase := phase } :=
  ⟨h.headed, h.first, h.placed, h.once, (fun hnot => nomatch hnot), h.joined,
    fun hdeleted => ⟨(h.gone hdeleted).1, .inr rfl⟩, fun _ => haborted,
    (phaseSound_to (s := { s with looked := true })).mpr hphase⟩

theorem Sound.lost_of_not_suits (h : Sound layoutStillFits plan s) (hunlooked : s.looked = false)
    (hnot : ∀ current, s.current = some current → ¬Suits layoutStillFits plan current) :
    Lost s := by
  intro version hversion
  obtain ⟨-, hle⟩ := h.placed version hversion
  by_contra hlt
  obtain ⟨⟨current, hcurrent, hsuits⟩, -⟩ :=
    h.open hunlooked version hversion (by omega)
  exact hnot current hcurrent hsuits

theorem Sound.lost_of_current (h : Sound layoutStillFits plan s) (hunlooked : s.looked = false)
    {current : Metadata} (hcurrent : s.current = some current)
    (hnot : ¬Suits layoutStillFits plan current) : Lost s := by
  apply h.lost_of_not_suits hunlooked
  intro current' hcurrent'
  rw [hcurrent] at hcurrent'
  cases hcurrent'
  exact hnot

theorem metadataAt_take_append {zero : Option Metadata} {later : List Entry} {e : Entry} {i : Nat}
    (hi : i ≤ later.length) :
    metadataAt zero ((later ++ [e]).take i) = metadataAt zero (later.take i) := by
  rw [take_append_of_le_length hi]

theorem sound_create (h : Sound layoutStillFits plan s) (hzero : s.zero = none)
    {metadata : Metadata} (zeros : Nat)
    (hfirst : metadata.identity = plan.metadata.identity → metadata = plan.metadata) :
    Sound layoutStillFits plan { s with zero := some metadata, zeros := zeros } := by
  have hlater : s.later = [] := h.headed hzero
  have hcurrent : s.current = none := current_eq_none.mpr hzero
  have hopen : ¬Open layoutStillFits plan s := by
    rintro ⟨⟨current, hshown, -⟩, -⟩
    rw [hcurrent] at hshown
    cases hshown
  have hnot : ∀ {table}, ¬Followed plan s table := by
    rintro table (hnonempty | ⟨-, first, hsome, -⟩)
    · exact hnonempty hlater
    · rw [hzero] at hsome
      cases hsome
  have hphase := h.phase
  exact {
    headed := fun hnone => nomatch hnone
    first := by
      intro first heq hidentity
      cases heq
      exact hfirst hidentity
    placed := h.placed
    once := h.once
    «open» := by
      intro hunlooked version hversion hnext
      exact absurd (h.open hunlooked version hversion hnext) hopen
    joined := by
      intro i e he
      change s.later[i]? = some e at he
      rw [hlater] at he
      cases he
    gone := h.gone
    looked := h.looked
    phase := by
      change PhaseSound layoutStillFits plan
        { s with zero := some metadata, zeros := zeros } s.phase
      generalize s.phase = phase at hphase ⊢
      cases phase with
      | ready n table version =>
        obtain ⟨hgoing, htarget, hpos, hle, hothers, hnext⟩ := hphase
        exact ⟨hgoing, htarget, hpos, hle, hothers, fun hversion =>
          absurd (hnext hversion) hopen⟩
      | failed table => exact absurd hphase.2 hnot
      | rollbackRead => exact ⟨hphase.1, fun _ _ _ => hlater⟩
      | rollbackDelete =>
        rw [PhaseSound, hzero] at hphase
        cases hphase.2.1
      | aborting table final =>
        cases final with
        | false => exact absurd hphase.2 hnot
        | true => exact hphase
      | deleting table final =>
        cases final with
        | false => exact absurd hphase.2.1 hnot
        | true => exact hphase
      | returned version kept => cases kept <;> exact hphase
      | _ => exact hphase }

theorem phaseSound_append (e : Entry) (h : PhaseSound layoutStillFits plan s phase)
    (hkeep : Lost s ∨ s.looked = true → Unadded plan s →
      Unadded plan { s with later := s.later ++ [e] })
    (hundo : (phase = .rollbackRead ∨ phase = .rollbackDelete) →
      s.zero.map Metadata.identity ≠ some plan.metadata.identity) :
    PhaseSound layoutStillFits plan { s with later := s.later ++ [e] } phase := by
  have hlost : Lost s → Lost { s with later := s.later ++ [e] } :=
    fun h => h.mono rfl (by simp)
  have hnonempty : s.later ++ [e] ≠ [] := by simp
  have hadded : 1 ≤ ownVersions s.later → 1 ≤ ownVersions (s.later ++ [e]) := by
    intro hle
    rw [ownVersions_append]
    omega
  cases phase with
  | joining table version => exact ⟨h.1, h.2.imp_right hlost⟩
  | dropping version => exact hlost h
  | dropped version => exact ⟨hlost h.1, hkeep (.inl h.1) h.2⟩
  | resolve n table checked =>
    obtain ⟨hgoing, htarget, hle, hclear⟩ := h
    refine ⟨hgoing, htarget, by simpa using Nat.le_succ_of_le hle, fun hfiles => ?_⟩
    change ownVersions ((s.later ++ [e]).take checked) = 0
    rw [take_append_of_le_length hle]
    exact hclear hfiles
  | ready n table version =>
    obtain ⟨hgoing, htarget, hpos, hle, hothers, -⟩ := h
    have hlength : (s.later ++ [e]).length = s.later.length + 1 := by simp
    refine ⟨hgoing, htarget, hpos, ?_, hothers, fun hnext => ?_⟩
    · change version ≤ (s.later ++ [e]).length + 1
      omega
    · change version = (s.later ++ [e]).length + 1 at hnext
      omega
  | failed table => exact ⟨hlost h.1, .inl hnonempty⟩
  | aborting table final =>
    cases final with
    | false => exact ⟨hlost h.1, .inl hnonempty⟩
    | true => exact h
  | deleting table final =>
    cases final with
    | false => exact ⟨hlost h.1, .inl hnonempty, hkeep (.inl h.1) h.2.2⟩
    | true => exact ⟨h.1, hkeep (.inr h.1) h.2⟩
  | erasing => exact ⟨h.1, hkeep (.inr h.1) h.2⟩
  | rollback => exact .inr hnonempty
  | rollbackRead =>
    refine ⟨h.1, fun first hfirst hidentity => ?_⟩
    exact absurd (by simp [show s.zero = some first from hfirst, hidentity]) (hundo (.inl rfl))
  | rollbackDelete => exact absurd h.2.1 (hundo (.inr rfl))
  | landed version => exact fun hfiles => hadded (h hfiles)
  | returned version kept =>
    cases kept with
    | false => exact fun hfiles => hadded (h hfiles)
    | true => trivial
  | _ => exact h

theorem sound_write (h : Sound layoutStillFits plan s) (hzero : s.zero.isSome = true)
    (hundo : s.undoing plan = false) (metadata : Option Metadata) :
    Sound layoutStillFits plan { s with later := s.later ++ [⟨false, metadata⟩] } where
  headed hnone := by
    rw [show s.zero = none from hnone] at hzero
    cases hzero
  first := h.first
  placed version hversion := by
    obtain ⟨hpos, hle⟩ := h.placed version hversion
    refine ⟨hpos, ?_⟩
    change version ≤ (s.later ++ [_]).length + 1
    rw [length_append]
    omega
  once hfiles := by
    change ownVersions (s.later ++ [_]) ≤ 1
    rw [ownVersions_append, ownVersions_other]
    exact h.once hfiles
  «open» _ version hversion hnext := by
    have hle := (h.placed version hversion).2
    change version = (s.later ++ [_]).length + 1 at hnext
    rw [length_append, length_singleton] at hnext
    omega
  joined i e he hown := by
    change (s.later ++ [_])[i]? = some e at he
    obtain ⟨hlt, heq⟩ := List.getElem?_eq_some_iff.mp he
    rw [length_append, length_singleton] at hlt
    have hi : i < s.later.length := by
      by_contra hge
      have hlast : i = s.later.length := by omega
      subst hlast
      rw [getElem_append_right (Nat.le_refl _)] at heq
      simp only [Nat.sub_self, getElem_singleton] at heq
      rw [← heq] at hown
      cases hown
    rw [List.getElem?_append_left hi] at he
    simp only [metadataAt_take_append hi.le]
    exact h.joined i e he hown
  gone hdeleted := by
    obtain ⟨hunadded, hlost⟩ := h.gone hdeleted
    refine ⟨fun hfiles => ?_, hlost.imp_left fun hlost => hlost.mono rfl (by simp)⟩
    change ownVersions (s.later ++ [_]) = 0
    rw [ownVersions_append, ownVersions_other]
    exact hunadded hfiles
  looked := h.looked
  phase := by
    refine phaseSound_append _ h.phase (fun _ hunadded hfiles => ?_) fun hphase hours => ?_
    · change ownVersions (s.later ++ [_]) = 0
      rw [ownVersions_append, ownVersions_other]
      exact hunadded hfiles
    · change s.phase = .rollbackRead ∨ s.phase = .rollbackDelete at hphase
      rcases hphase with hphase | hphase <;> simp [World.undoing, hphase, hours] at hundo

theorem sound_land (h : Sound layoutStillFits plan s) (hunlooked : s.looked = false)
    (hsent : s.later.length + 1 ∈ s.sent) :
    Sound layoutStillFits plan { s with later := s.later ++ [⟨true, none⟩] } := by
  obtain ⟨⟨current, hcurrent, hsuits⟩, hunadded⟩ := h.open hunlooked _ hsent rfl
  have halive : ¬(Lost s ∨ s.looked = true) := by
    rintro (hlost | hlooked)
    · exact absurd (hlost _ hsent) (by omega)
    · rw [hunlooked] at hlooked
      cases hlooked
  exact {
    headed := by
      intro hnone
      rw [World.current, show s.zero = none from hnone] at hcurrent
      cases hcurrent
    first := h.first
    placed := by
      intro version hversion
      obtain ⟨hpos, hle⟩ := h.placed version hversion
      refine ⟨hpos, ?_⟩
      change version ≤ (s.later ++ [_]).length + 1
      rw [length_append]
      omega
    once := by
      intro hfiles
      change ownVersions (s.later ++ [_]) ≤ 1
      rw [ownVersions_append, ownVersions_own, hunadded hfiles]
    «open» := by
      intro _ version hversion hnext
      have hle := (h.placed version hversion).2
      change version = (s.later ++ [_]).length + 1 at hnext
      rw [length_append, length_singleton] at hnext
      omega
    joined := by
      intro i e he hown
      change (s.later ++ [_])[i]? = some e at he
      obtain ⟨hlt, -⟩ := List.getElem?_eq_some_iff.mp he
      rw [length_append, length_singleton] at hlt
      simp only [metadataAt_take_append (Nat.lt_succ_iff.mp hlt)]
      rcases Nat.lt_or_ge i s.later.length with hi | hge
      · rw [List.getElem?_append_left hi] at he
        exact h.joined i e he hown
      · rw [take_of_length_le hge]
        exact ⟨current, hcurrent, hsuits⟩
    gone := fun hdeleted => absurd (h.gone hdeleted).2 halive
    looked := h.looked
    phase := by
      refine phaseSound_append _ h.phase (fun hdead => absurd hdead halive) fun hphase => ?_
      change s.phase = .rollbackRead ∨ s.phase = .rollbackDelete at hphase
      have hsound := h.phase
      rcases hphase with hphase | hphase <;> rw [hphase] at hsound <;>
        exact absurd (.inr hsound.1) halive }

/-- Every fragment fits the layout of the version 0 the plan composed. -/
def Planned (layoutStillFits : Text → Text → Bool) (plan : Plan) : Prop :=
  fits layoutStillFits plan plan.metadata = true

theorem phaseSound_undo (h : table = plan.metadata.identity → s.looked = true ∨ s.later ≠ []) :
    PhaseSound layoutStillFits plan s (undo plan table) := by
  rw [undo]
  split_ifs with hours
  · exact h hours
  · trivial

theorem phaseSound_declined (version : Nat) :
    PhaseSound layoutStillFits plan s (declined plan version) := by
  rw [declined]
  split_ifs <;> trivial

theorem sound_resolve (hplanned : Planned layoutStillFits plan) (h : Sound layoutStillFits plan s)
    (hok : allowed layoutStillFits plan s .go = true) {n checked : Nat}
    (heq : s.phase = .resolve n table checked) (hnext : advance layoutStillFits plan s = some t) :
    Sound layoutStillFits plan t := by
  have hphase := h.phase
  rw [heq] at hphase
  obtain ⟨hgoing, htarget, hle, hclear⟩ := hphase
  simp only [advance, heq] at hnext
  split at hnext
  · cases hnext
    exact h.to trivial
  · rename_i current hcurrent
    cases hnext
    apply h.to
    split_ifs with hother hfits
    · trivial
    · have htable : current.identity = table := not_not.mp hother
      refine ⟨hgoing, htarget, Nat.le_add_left 1 _, Nat.le_refl _,
        fun other hmem => (h.placed other hmem).2, fun _ => ⟨⟨current, hcurrent, ?_, hfits⟩, ?_⟩⟩
      · exact htarget.imp_left htable.trans
      · intro hfiles
        have hbuilds : builds layoutStillFits plan s table = true := by
          simp [builds, hcurrent, htable, hfits]
        have hrest : ownVersions (s.later.drop checked) = 0 := by
          simpa [allowed, heq, hfiles, hbuilds] using hok
        rw [← take_append_drop checked s.later, ownVersions_append, hclear hfiles, hrest]
    · have hlost : Lost s := h.lost_of_current hgoing.2 hcurrent fun hsuits => hfits hsuits.2
      refine ⟨hlost, or_iff_not_imp_left.mpr fun hempty => ?_⟩
      -- Nothing was committed onto version 0, and the files fit the plan's own.
      have hzero : s.zero = some current := by
        cases hfirst : s.zero with
        | none => simp [World.current, metadataAt, hfirst] at hcurrent
        | some first =>
          simpa [World.current, metadataAt, hfirst, not_not.mp hempty] using hcurrent
      have hforeign : current.identity ≠ plan.metadata.identity := by
        intro hours
        rw [h.first current hzero hours] at hfits
        exact hfits hplanned
      exact ⟨not_not.mp hother ▸ hforeign, current, hzero, hforeign⟩

theorem sound_opened (h : Sound layoutStillFits plan s)
    (heq : s.phase = .opened) (hnext : advance layoutStillFits plan s = some t) :
    Sound layoutStillFits plan t := by
  have hphase := h.phase
  rw [heq] at hphase
  simp only [advance, heq] at hnext
  split at hnext
  · cases hnext
    exact h.to trivial
  · rename_i current hcurrent
    cases hnext
    apply h.to
    split_ifs with hours
    · exact ⟨hphase, .inl hours⟩
    · refine ⟨hphase, ?_⟩
      by_cases hmode : plan.mode = .append
      · exact .inl hmode
      · exact .inr (h.lost_of_current hphase.2 hcurrent fun hsuits => hsuits.1.elim hours hmode)

theorem sound_joining {table version : Nat} (h : Sound layoutStillFits plan s)
    (heq : s.phase = .joining table version) (hnext : advance layoutStillFits plan s = some t) :
    Sound layoutStillFits plan t := by
  have hphase := h.phase
  rw [heq] at hphase
  simp only [advance, heq] at hnext
  split at hnext
  · cases hnext
    exact h.to trivial
  · rename_i current hcurrent
    cases hnext
    apply h.to
    split_ifs with hjoins hdrops
    · exact ⟨hphase.1, .inr hjoins.1⟩
    · rcases hphase.2 with hmode | hlost
      · exact h.lost_of_current hphase.1.2 hcurrent fun hsuits => hjoins ⟨hmode, hsuits.2⟩
      · exact hlost
    · trivial

theorem sound_attempt {n table : Nat} (h : Sound layoutStillFits plan s)
    (heq : s.phase = .attempt n table) (hnext : advance layoutStillFits plan s = some t) :
    Sound layoutStillFits plan t := by
  have hphase := h.phase
  rw [heq] at hphase
  simp only [advance, heq] at hnext
  cases hnext
  apply h.to
  split_ifs with hblank hzero hbare hnone hclear hone
  · intro hfiles
    rw [hblank.1] at hfiles
    cases hfiles
  · trivial
  · exact ⟨hphase.1, hphase.2, Nat.le_refl _, fun hfiles => absurd hfiles hbare⟩
  · trivial
  · refine ⟨hphase.1, hphase.2, Nat.le_refl _, fun _ => ?_⟩
    rw [take_length]
    exact hclear
  · exact fun _ => hone.ge
  · trivial

theorem sound_aborting {table : Nat} {final : Bool} (h : Sound layoutStillFits plan s)
    (heq : s.phase = .aborting table final) (hnext : advance layoutStillFits plan s = some t) :
    Sound layoutStillFits plan t := by
  have hphase := h.phase
  rw [heq] at hphase
  cases final with
  | false =>
    simp only [advance, heq, Bool.or_false, Bool.false_eq_true, if_false] at hnext
    split_ifs at hnext with hbare hclear <;> cases hnext
    · exact h.to (phaseSound_undo hphase.2.undo)
    · exact h.to ⟨hphase.1, hphase.2, fun _ => hclear.2⟩
    · exact h.to (phaseSound_undo hphase.2.undo)
  | true =>
    simp only [advance, heq, Bool.or_true, if_true] at hnext
    split_ifs at hnext with hbare hclear <;> cases hnext
    · exact h.look hphase (phaseSound_undo fun _ => .inl rfl)
    · exact h.look hphase ⟨rfl, fun _ => hclear.2⟩
    · exact h.to trivial

theorem sound_look (h : Sound layoutStillFits plan s)
    (heq : s.phase = .look) (hnext : advance layoutStillFits plan s = some t) :
    Sound layoutStillFits plan t := by
  have hphase := h.phase
  rw [heq] at hphase
  simp only [advance, heq] at hnext
  split_ifs at hnext with hzero hfiles <;> cases hnext
  · exact h.to hphase
  · refine h.look hphase ⟨rfl, fun _ => ?_⟩
    have hlater := h.headed (by simpa using hzero)
    simp [ownVersions, hlater]
  · exact h.look hphase (.inl rfl)

theorem sound_advance (hplanned : Planned layoutStillFits plan) (h : Sound layoutStillFits plan s)
    (hok : allowed layoutStillFits plan s .go = true)
    (hnext : advance layoutStillFits plan s = some t) : Sound layoutStillFits plan t := by
  have hphase := h.phase
  cases heq : s.phase with
  | opened => exact sound_opened h heq hnext
  | joining table version => exact sound_joining h heq hnext
  | dropping version =>
    rw [heq] at hphase
    simp only [advance, heq] at hnext
    cases hnext
    apply h.to
    split_ifs with hdrops
    · exact ⟨hphase, fun _ => hdrops.2.2⟩
    · exact phaseSound_declined version
  | attempt n table => exact sound_attempt h heq hnext
  | resolve n table checked => exact sound_resolve hplanned h hok heq hnext
  | failed table =>
    rw [heq] at hphase
    simp only [advance, heq] at hnext
    cases hnext
    apply h.to
    split_ifs
    · exact hphase
    · trivial
  | aborting table final => exact sound_aborting h heq hnext
  | rollback =>
    rw [heq] at hphase
    simp only [advance, heq] at hnext
    cases hnext
    apply h.to
    split_ifs with hempty
    · exact ⟨hphase.resolve_right (not_not.mpr hempty), fun _ _ _ => hempty⟩
    · trivial
  | rollbackRead =>
    rw [heq] at hphase
    simp only [advance, heq] at hnext
    cases hnext
    apply h.to
    split_ifs with hours
    · obtain ⟨first, hfirst, hidentity⟩ := Option.map_eq_some_iff.mp hours
      exact ⟨hphase.1, hours, hphase.2 first hfirst hidentity⟩
    · trivial
  | landed version =>
    rw [heq] at hphase
    simp only [advance, heq] at hnext
    cases hnext
    exact h.to hphase
  | look => exact sound_look h heq hnext
  | reopen =>
    rw [heq] at hphase
    simp only [advance, heq] at hnext
    split at hnext <;> cases hnext
    · exact h.to trivial
    · exact h.to hphase
  | _ => simp only [advance, heq, reduceCtorEq] at hnext

theorem sound_answered {answer : Answer} (h : Sound layoutStillFits plan s)
    (hnext : answered plan s answer = some t) : Sound layoutStillFits plan t := by
  have hphase := h.phase
  cases answer with
  | accepted =>
    simp only [answered] at hnext
    split at hnext
    · rename_i heq
      rw [heq] at hphase
      split_ifs at hnext
      cases hnext
      exact h.to hphase
    · split_ifs at hnext with hown
      cases hnext
      refine h.to fun _ => ?_
      obtain ⟨e, he, hown⟩ := Option.map_eq_some_iff.mp hown
      exact countP_pos_iff.mpr ⟨e, mem_of_getElem? he, hown⟩
    · cases hnext
  | conflict =>
    simp only [answered] at hnext
    split at hnext
    · rename_i heq
      rw [heq] at hphase
      split_ifs at hnext
      cases hnext
      exact h.to hphase
    · rename_i n table version heq
      rw [heq] at hphase
      obtain ⟨hgoing, htarget, hpos, hothers⟩ := hphase
      split_ifs at hnext with htaken hlast <;> cases hnext
      · refine h.to ⟨fun other hmem => (hothers other hmem).trans htaken, .inl fun hempty => ?_⟩
        rw [hempty, length_nil] at htaken
        omega
      · exact h.to ⟨hgoing, htarget⟩
    · cases hnext
  | transient =>
    simp only [answered] at hnext
    split at hnext
    · cases hnext
      exact h.to trivial
    · rename_i n table version heq
      rw [heq] at hphase
      cases hnext
      apply h.to
      split_ifs
      · trivial
      · exact ⟨hphase.1, hphase.2.1⟩
    · cases hnext

theorem Sound.delete (h : Sound layoutStillFits plan s) (hunadded : Unadded plan s)
    (hdead : Lost s ∨ s.looked = true)
    (hphase : PhaseSound layoutStillFits plan { s with deleted := true } phase) :
    Sound layoutStillFits plan { s with deleted := true, phase := phase } :=
  ⟨h.headed, h.first, h.placed, h.once, h.open, h.joined, fun _ => ⟨hunadded, hdead⟩, h.looked,
    (phaseSound_to (s := { s with deleted := true })).mpr hphase⟩

theorem sound_deletes (h : Sound layoutStillFits plan s) (hnext : deletes plan s = some t) :
    Sound layoutStillFits plan t := by
  have hphase := h.phase
  cases heq : s.phase with
  | dropped version =>
    rw [heq] at hphase
    simp only [deletes, heq] at hnext
    cases hnext
    exact h.delete hphase.2 (.inl hphase.1) (phaseSound_declined version)
  | deleting table final =>
    rw [heq] at hphase
    simp only [deletes, heq] at hnext
    cases hnext
    cases final with
    | false =>
      exact h.delete hphase.2.2 (.inl hphase.1)
        (phaseSound_undo hphase.2.1.undo)
    | true => exact h.delete hphase.2 (.inr hphase.1) (phaseSound_undo fun _ => .inl hphase.1)
  | erasing =>
    rw [heq] at hphase
    simp only [deletes, heq] at hnext
    cases hnext
    exact h.delete hphase.2 (.inr hphase.1) (.inl hphase.1)
  | rollbackDelete =>
    rw [heq] at hphase
    obtain ⟨hlooked, -, hempty⟩ := hphase
    simp only [deletes, heq] at hnext
    cases hnext
    exact {
      headed := fun _ => hempty
      first := fun _ hnone => nomatch hnone
      placed := h.placed
      once := h.once
      «open» := by
        intro hunlooked
        rw [show s.looked = false from hunlooked] at hlooked
        cases hlooked
      joined := by
        intro i e he
        change s.later[i]? = some e at he
        rw [hempty] at he
        cases he
      gone := h.gone
      looked := h.looked
      phase := trivial }
  | _ => simp only [deletes, heq, reduceCtorEq] at hnext

/-- Every event that is allowed keeps the invariant. -/
theorem sound_next (hplanned : Planned layoutStillFits plan) {e : Event}
    (h : Sound layoutStillFits plan s) (hok : allowed layoutStillFits plan s e = true)
    (hnext : next layoutStillFits plan s e = some t) : Sound layoutStillFits plan t := by
  cases e with
  | create metadata =>
    simp only [next] at hnext
    split_ifs at hnext with hfree
    cases hnext
    exact sound_create h hfree.1 s.zeros fun hours => absurd hours hfree.2
  | write stale metadata =>
    simp only [allowed, Bool.and_eq_true, Bool.not_eq_true'] at hok
    simp only [next, hok.1, Bool.false_eq_true, if_false] at hnext
    split_ifs at hnext with hzero
    cases hnext
    exact sound_write h hzero hok.2 metadata
  | landZero =>
    simp only [next] at hnext
    split_ifs at hnext with hfree
    cases hnext
    exact sound_create h hfree.1 (s.zeros - 1) fun _ => rfl
  | land version =>
    simp only [next] at hnext
    split_ifs at hnext with hfree
    cases hnext
    exact sound_land h (by simpa [allowed] using hok) (hfree.2 ▸ hfree.1)
  | commit args =>
    simp only [next] at hnext
    split_ifs at hnext with hfree
    cases hnext
    have hunlooked : s.looked = false := by
      rw [← Bool.not_eq_true]
      intro hlooked
      have := h.looked hlooked
      rw [hfree.2] at this
      cases this
    exact ⟨h.headed, h.first, h.placed, h.once, h.open, h.joined, h.gone, h.looked,
      ⟨by simpa [allowed] using hok, hunlooked⟩⟩
  | abort =>
    simp only [next] at hnext
    split_ifs at hnext
    cases hnext
    exact ⟨h.headed, h.first, h.placed, h.once, h.open, h.joined, h.gone, fun _ => rfl, rfl⟩
  | go => exact sound_advance hplanned h hok hnext
  | send =>
    have hphase := h.phase
    simp only [next] at hnext
    split at hnext
    · rename_i heq
      rw [heq] at hphase
      cases hnext
      exact ⟨h.headed, h.first, h.placed, h.once, h.open, h.joined, h.gone, h.looked, hphase⟩
    · rename_i n table version heq
      rw [heq] at hphase
      obtain ⟨hgoing, htarget, hpos, hle, hothers, hopen⟩ := hphase
      cases hnext
      exact {
        headed := h.headed
        first := h.first
        placed := by
          intro other hmem
          rcases mem_cons.mp hmem with rfl | hmem
          · exact ⟨hpos, hle⟩
          · exact h.placed other hmem
        once := h.once
        «open» := by
          intro hunlooked other hmem hnext
          rcases mem_cons.mp hmem with rfl | hmem
          · exact hopen hnext
          · exact h.open hunlooked other hmem hnext
        joined := h.joined
        gone := by
          intro hdeleted
          cases (show s.deleted = true from hdeleted).symm.trans hgoing.1
        looked := h.looked
        phase := by
          refine ⟨hgoing, htarget, hpos, fun other hmem => ?_⟩
          rcases mem_cons.mp hmem with rfl | hmem
          · exact Nat.le_refl _
          · exact hothers other hmem }
    · cases hnext
  | answer answer => exact sound_answered h hnext
  | delete => exact sound_deletes h hnext
  | skip =>
    have hphase := h.phase
    simp only [next] at hnext
    split at hnext
    · rename_i table heq
      rw [heq] at hphase
      cases hnext
      exact h.to (phaseSound_undo hphase.2.undo)
    · rename_i table heq
      rw [heq] at hphase
      cases hnext
      exact h.to (phaseSound_undo hphase.2.1.undo)
    · cases hnext
      exact h.to (phaseSound_declined _)
    · cases hnext
      exact h.to (phaseSound_declined _)
    · cases hnext
  | raise =>
    simp only [next] at hnext
    split_ifs at hnext
    cases hnext
    exact h.to trivial

end

end DeltaSwamp.Creating
