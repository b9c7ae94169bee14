import DeltaSwamp.Append.Attempt

/-!
# An append adds its rows once

What the answers to a put have to mean for the retries and the clean-up to be
right: a version reported as existing is another writer's, and a put reported
as one to retry is not applied.
-/

namespace DeltaSwamp.Append

open Commit List

/-- The versions that add the call's rows. -/
def ownVersions (log : Log) : Nat := log.countP fun
  | .own _ => true
  | .foreign _ => false

/-- At most one version adds the rows, just one if the call returns and no other writer recorded its
transaction, and no version adds a file that was deleted. -/
structure AddedOnce (s : World) : Prop where
  once : ownVersions s.log ≤ 1
  returned : s.phase = .returned → .foreign true ∉ s.log → ownVersions s.log = 1
  kept : ∀ attempt ∈ s.deleted, .own attempt ∉ s.log

/-- The put whose answer a call waits for. -/
def Phase.current : Phase → Option Put
  | .sent _ _ put => some put
  | _ => none

/-- The answers tell what became of the put: a version said to exist is not the put's own, and a put
reported as one to retry has not been applied and is not applied later. -/
def Truthful (s : World) : Event → Prop
  | .answer report => ∀ put ∈ s.phase.current,
    report.saysExists = true ∨ report = .retryable → .own put.attempt ∉ s.log
  | .land put => put.attempt ∉ s.retryable
  | _ => True

instance (s : World) : (e : Event) → Decidable (Truthful s e)
  | .answer report => inferInstanceAs (Decidable (∀ put ∈ s.phase.current,
    report.saysExists = true ∨ report = .retryable → .own put.attempt ∉ s.log))
  | .land put => inferInstanceAs (Decidable (put.attempt ∉ s.retryable))
  | .write _ | .check _ | .resolve _ | .stageFails _ | .send | .race _ | .landed _ | .giveUp
  | .realign => inferInstanceAs (Decidable True)

/-- A put that has not been applied and will not be. -/
def Dead (s : World) (put : Put) : Prop :=
  .own put.attempt ∉ s.log ∧ (put.version < s.log.length ∨ put.attempt ∈ s.retryable)

/-- Where a put may still be alive. -/
def MayLive (s : World) (put : Put) : Prop :=
  match s.phase with
  | .sent _ _ current => put = current
  | .failed _ false | .returned | .raised => True
  | _ => False

structure Sound (s : World) : Prop where
  own : ∀ attempt, .own attempt ∈ s.log → ∃ put ∈ s.sent, put.attempt = attempt
  fresh : ∀ put ∈ s.sent, put.attempt < s.attempts
  gone : ∀ attempt ∈ s.deleted, attempt < s.attempts
  distinct : s.sent.Pairwise fun put put' => put.attempt ≠ put'.attempt
  nodup : s.log.Pairwise fun e e' => ∀ attempt, e = .own attempt → e' ≠ .own attempt
  dead : ∀ put ∈ s.sent, ¬ MayLive s put → Dead s put
  single : ∀ put ∈ s.sent, ∀ put' ∈ s.sent, put ≠ put' → Dead s put ∨ Dead s put'
  cleaned : ∀ put ∈ s.sent, put.attempt ∈ s.deleted → Dead s put
  current : ∀ aligned attempt put, s.phase = .sent aligned attempt put → put ∈ s.sent
  served : s.phase = .returned → (∃ attempt, .own attempt ∈ s.log) ∨ .foreign true ∈ s.log

section
variable {lowerChar : Char → Text} {job : Job} {s s' : World} {put put' : Put}

theorem Sound.eq_of_attempt (h : Sound s) (hput : put ∈ s.sent) (hput' : put' ∈ s.sent)
    (hsame : put.attempt = put'.attempt) : put = put' := by
  by_contra hne
  have hsymm : Std.Symm fun put put' : Put => put.attempt ≠ put'.attempt := ⟨fun _ _ => Ne.symm⟩
  exact h.distinct.forall hput hput' hne hsame

theorem Sound.kept (h : Sound s) : ∀ attempt ∈ s.deleted, .own attempt ∉ s.log := by
  intro attempt hdeleted hlog
  obtain ⟨put, hput, rfl⟩ := h.own attempt hlog
  exact (h.cleaned put hput hdeleted).1 hlog

theorem countP_le_one {α : Type} {p : α → Bool} {l : List α}
    (h : l.Pairwise fun a b => ¬ (p a = true ∧ p b = true)) : l.countP p ≤ 1 := by
  induction l with
  | nil => simp
  | cons a l ih =>
    obtain ⟨hfirst, hrest⟩ := pairwise_cons.mp h
    rw [countP_cons]
    split_ifs with ha
    · have hzero : l.countP p = 0 :=
        countP_eq_zero.mpr fun b hb hp => hfirst b hb ⟨ha, hp⟩
      omega
    · exact ih hrest

theorem Sound.once (h : Sound s) : ownVersions s.log ≤ 1 := by
  apply countP_le_one
  refine h.nodup.imp_of_mem ?_
  rintro e e' he he' hne ⟨hown, hown'⟩
  cases e with
  | foreign => cases hown
  | own attempt =>
    cases e' with
    | foreign => cases hown'
    | own attempt' =>
      obtain ⟨put, hput, rfl⟩ := h.own attempt he
      obtain ⟨put', hput', rfl⟩ := h.own attempt' he'
      have hdiffer : put ≠ put' := fun heq => hne put.attempt rfl (by rw [heq])
      rcases h.single put hput put' hput' hdiffer with hdead | hdead
      · exact hdead.1 he
      · exact hdead.1 he'

theorem Sound.addedOnce (h : Sound s) : AddedOnce s where
  once := h.once
  kept := h.kept
  returned := by
    intro hreturned hforeign
    obtain ⟨attempt, hmem⟩ := (h.served hreturned).resolve_right hforeign
    have hpos : 0 < ownVersions s.log := countP_pos_iff.mpr ⟨_, hmem, rfl⟩
    have := h.once
    omega

theorem sound_write (h : Sound s) (records : Bool) :
    Sound { s with log := s.log ++ [.foreign records] } := by
  have hown : ∀ attempt, .own attempt ∈ s.log ++ [.foreign records] ↔ .own attempt ∈ s.log := by
    simp
  have hdead : ∀ {put}, Dead s put → Dead { s with log := s.log ++ [.foreign records] } put := by
    intro put hdead
    refine ⟨(hown put.attempt).not.mpr hdead.1, hdead.2.imp_left fun hlt => ?_⟩
    change put.version < (s.log ++ [Entry.foreign records]).length
    rw [length_append]
    omega
  exact {
    own := fun attempt hmem => h.own attempt ((hown attempt).mp hmem)
    fresh := h.fresh
    gone := h.gone
    distinct := h.distinct
    nodup := by
      refine pairwise_append.mpr ⟨h.nodup, pairwise_singleton _ _, ?_⟩
      intro e _ e' he' attempt _ howned
      rw [mem_singleton.mp he'] at howned
      cases howned
    dead := fun put hput hlive => hdead (h.dead put hput hlive)
    single := fun put hput put' hput' hne => (h.single put hput put' hput' hne).imp hdead hdead
    cleaned := fun put hput hdeleted => hdead (h.cleaned put hput hdeleted)
    current := h.current
    served := fun hreturned => (h.served hreturned).imp
      (fun ⟨attempt, hmem⟩ => ⟨attempt, (hown attempt).mpr hmem⟩)
      fun hmem => mem_append_left _ hmem }

theorem sound_land (h : Sound s) (hput : put ∈ s.sent) (hversion : put.version = s.log.length)
    (hnew : .own put.attempt ∉ s.log) (hok : put.attempt ∉ s.retryable) :
    Sound { s with log := s.log ++ [.own put.attempt] } := by
  have halive : ¬ Dead s put := by
    rintro ⟨-, hlt | hretryable⟩
    · omega
    · exact hok hretryable
  have hdead : ∀ {put'}, put' ∈ s.sent → Dead s put' →
      Dead { s with log := s.log ++ [.own put.attempt] } put' := by
    intro put' hput' hdead
    refine ⟨?_, hdead.2.imp_left fun hlt => ?_⟩
    · intro hmem
      rcases mem_append.mp hmem with hmem | hmem
      · exact hdead.1 hmem
      · have hsame : put'.attempt = put.attempt := by simpa using hmem
        exact halive (h.eq_of_attempt hput' hput hsame ▸ hdead)
    · change put'.version < (s.log ++ [Entry.own put.attempt]).length
      rw [length_append]
      omega
  exact {
    own := by
      intro attempt hmem
      rcases mem_append.mp hmem with hmem | hmem
      · exact h.own attempt hmem
      · exact ⟨put, hput, by simpa [eq_comm] using hmem⟩
    fresh := h.fresh
    gone := h.gone
    distinct := h.distinct
    nodup := by
      refine pairwise_append.mpr ⟨h.nodup, pairwise_singleton _ _, ?_⟩
      intro e he e' he' attempt howned howned'
      rw [mem_singleton.mp he'] at howned'
      rw [howned, ← howned'] at he
      exact hnew he
    dead := fun put' hput' hlive => hdead hput' (h.dead put' hput' hlive)
    single := fun put₁ h₁ put₂ h₂ hne => (h.single put₁ h₁ put₂ h₂ hne).imp (hdead h₁) (hdead h₂)
    cleaned := fun put' hput' hdeleted => hdead hput' (h.cleaned put' hput' hdeleted)
    current := h.current
    served := fun hreturned => (h.served hreturned).imp
      (fun ⟨attempt, hmem⟩ => ⟨attempt, mem_append_left _ hmem⟩)
      fun hmem => mem_append_left _ hmem }

theorem recorded_served {seen : Nat} (h : job.recorded (s.log.take seen) = true) :
    (∃ attempt, .own attempt ∈ s.log) ∨ .foreign true ∈ s.log := by
  unfold Job.recorded at h
  rw [Bool.and_eq_true, any_eq_true] at h
  obtain ⟨-, e, he, hrecords⟩ := h
  cases e with
  | own attempt => exact .inl ⟨attempt, mem_of_mem_take he⟩
  | foreign records =>
    cases hrecords
    exact .inr (mem_of_mem_take he)

theorem Sound.enter (h : Sound s) {phase : Phase}
    (hdead : ∀ put ∈ s.sent, Dead s put)
    (hnot : ∀ aligned attempt put, phase ≠ .sent aligned attempt put)
    (hserved : phase = .returned → (∃ attempt, .own attempt ∈ s.log) ∨ .foreign true ∈ s.log) :
    Sound { s with phase := phase } where
  own := h.own
  fresh := h.fresh
  gone := h.gone
  distinct := h.distinct
  nodup := h.nodup
  dead := fun put hput _ => hdead put hput
  single := h.single
  cleaned := h.cleaned
  current := fun aligned attempt put hphase => absurd hphase (hnot aligned attempt put)
  served := hserved

theorem Sound.allDead (h : Sound s) (hphase : ∀ put, ¬ MayLive s put) :
    ∀ put ∈ s.sent, Dead s put :=
  fun put hput => h.dead put hput (hphase put)

theorem sound_stageFails {aligned attempt version : Nat} (h : Sound s)
    (hphase : s.phase = .stage aligned attempt version) (realigns : Bool) :
    Sound { s with
      deleted := s.attempts :: s.deleted
      attempts := s.attempts + 1
      phase := .failed aligned realigns } where
  own := h.own
  fresh put hput := Nat.lt_succ_of_lt (h.fresh put hput)
  gone := by
    intro attempt hmem
    rcases mem_cons.mp hmem with rfl | hmem
    · exact Nat.lt_succ_self _
    · exact Nat.lt_succ_of_lt (h.gone attempt hmem)
  distinct := h.distinct
  nodup := h.nodup
  dead := by
    intro put hput _
    exact h.dead put hput (by simp [MayLive, hphase])
  single := h.single
  cleaned := by
    intro put hput hmem
    rcases mem_cons.mp hmem with heq | hmem
    · exact absurd heq (h.fresh put hput).ne
    · exact h.cleaned put hput hmem
  current := fun _ _ _ hphase => nomatch hphase
  served := fun hphase => nomatch hphase

theorem sound_send {aligned attempt version : Nat} (h : Sound s)
    (hphase : s.phase = .stage aligned attempt version) :
    Sound { s with
      sent := ⟨s.attempts, version⟩ :: s.sent
      attempts := s.attempts + 1
      phase := .sent aligned attempt ⟨s.attempts, version⟩ } := by
  have hdead : ∀ put ∈ s.sent, Dead s put :=
    h.allDead fun put => by simp [MayLive, hphase]
  exact {
    own := fun attempt hmem =>
      (h.own attempt hmem).imp fun put hput => ⟨mem_cons_of_mem _ hput.1, hput.2⟩
    fresh := by
      intro put hput
      rcases mem_cons.mp hput with rfl | hput
      · exact Nat.lt_succ_self _
      · exact Nat.lt_succ_of_lt (h.fresh put hput)
    gone := fun attempt hmem => Nat.lt_succ_of_lt (h.gone attempt hmem)
    distinct := by
      refine pairwise_cons.mpr ⟨fun put hput => ?_, h.distinct⟩
      exact (h.fresh put hput).ne'
    nodup := h.nodup
    dead := by
      intro put hput hlive
      rcases mem_cons.mp hput with rfl | hput
      · exact absurd rfl hlive
      · exact hdead put hput
    single := by
      intro put hput put' hput' hne
      rcases mem_cons.mp hput with rfl | hput
      · rcases mem_cons.mp hput' with rfl | hput'
        · exact absurd rfl hne
        · exact .inr (hdead put' hput')
      · exact .inl (hdead put hput)
    cleaned := by
      intro put hput hmem
      rcases mem_cons.mp hput with rfl | hput
      · exact absurd (h.gone s.attempts hmem) (Nat.lt_irrefl _)
      · exact hdead put hput
    current := by
      intro _ _ put hsent
      cases hsent
      exact mem_cons_self
    served := fun hphase => nomatch hphase }

theorem answered_eq (s : World) (aligned attempt : Nat) (put : Put) (report : Report) :
    answered lowerChar s aligned attempt put report =
      match report with
      | .confirmed => { s with phase := .returned }
      | .exists | .precondition _ =>
        { s with deleted := put.attempt :: s.deleted, phase := .lost aligned attempt }
      | .storeFailure _ | .ioFailure _ => { s with phase := .failed aligned false }
      | .retryable =>
        { s with
          deleted := put.attempt :: s.deleted
          retryable := put.attempt :: s.retryable
          phase := .failed aligned false } := by
  cases report <;> rfl

theorem sound_failure (h : Sound s) (aligned : Nat) :
    Sound { s with phase := .failed aligned false } where
  own := h.own
  fresh := h.fresh
  gone := h.gone
  distinct := h.distinct
  nodup := h.nodup
  dead := fun _ _ hlive => absurd trivial hlive
  single := h.single
  cleaned := h.cleaned
  current := fun _ _ _ hsent => nomatch hsent
  served := fun hreturned => nomatch hreturned

section
variable {aligned attempt : Nat} (h : Sound s) (hphase : s.phase = .sent aligned attempt put)
include h hphase

/-- A version that is another writer's: the put is dead, and so are its files. -/
theorem sound_taken (hversion : put.version < s.log.length) (hnew : .own put.attempt ∉ s.log) :
    Sound { s with deleted := put.attempt :: s.deleted, phase := .lost aligned attempt } := by
  have hput : put ∈ s.sent := h.current aligned attempt put hphase
  have hdead : ∀ put' ∈ s.sent, Dead s put' := by
    intro put' hput'
    by_cases hsame : put' = put
    · exact hsame ▸ ⟨hnew, .inl hversion⟩
    · exact h.dead put' hput' (by simpa [MayLive, hphase] using hsame)
  exact {
    own := h.own
    fresh := h.fresh
    gone := by
      intro attempt' hmem
      rcases mem_cons.mp hmem with rfl | hmem
      · exact h.fresh put hput
      · exact h.gone attempt' hmem
    distinct := h.distinct
    nodup := h.nodup
    dead := fun put' hput' _ => hdead put' hput'
    single := h.single
    cleaned := fun put' hput' _ => hdead put' hput'
    current := fun _ _ _ hsent => nomatch hsent
    served := fun hreturned => nomatch hreturned }

theorem sound_retryable (hnew : .own put.attempt ∉ s.log) :
    Sound { s with
      deleted := put.attempt :: s.deleted
      retryable := put.attempt :: s.retryable
      phase := .failed aligned false } := by
  have hput : put ∈ s.sent := h.current aligned attempt put hphase
  have hdead : ∀ {put'}, Dead s put' → Dead { s with
      deleted := put.attempt :: s.deleted
      retryable := put.attempt :: s.retryable
      phase := .failed aligned false } put' :=
    fun hdead => ⟨hdead.1, hdead.2.imp_right (mem_cons_of_mem _)⟩
  exact {
    own := h.own
    fresh := h.fresh
    gone := by
      intro attempt' hmem
      rcases mem_cons.mp hmem with rfl | hmem
      · exact h.fresh put hput
      · exact h.gone attempt' hmem
    distinct := h.distinct
    nodup := h.nodup
    dead := fun _ _ hlive => absurd trivial hlive
    single := fun put₁ h₁ put₂ h₂ hne => (h.single put₁ h₁ put₂ h₂ hne).imp hdead hdead
    cleaned := by
      intro put' hput' hmem
      rcases mem_cons.mp hmem with heq | hmem
      · exact ⟨heq ▸ hnew, .inr (heq ▸ mem_cons_self)⟩
      · exact hdead (h.cleaned put' hput' hmem)
    current := fun _ _ _ hsent => nomatch hsent
    served := fun hreturned => nomatch hreturned }

theorem sound_answer {report : Report} (hpossible : report.possible s.log put = true)
    (htrue : report.saysExists = true ∨ report = .retryable → .own put.attempt ∉ s.log) :
    Sound (answered lowerChar s aligned attempt put report) := by
  rw [answered_eq]
  cases report with
  | confirmed =>
    have hmem : .own put.attempt ∈ s.log :=
      mem_of_getElem? (of_decide_eq_true hpossible)
    exact ⟨h.own, h.fresh, h.gone, h.distinct, h.nodup, fun _ _ hlive => absurd trivial hlive,
      h.single, h.cleaned, (fun _ _ _ hsent => nomatch hsent), fun _ => .inl ⟨_, hmem⟩⟩
  | «exists» | precondition =>
    exact sound_taken h hphase (of_decide_eq_true hpossible) (htrue (.inl rfl))
  | storeFailure | ioFailure => exact sound_failure h aligned
  | retryable => exact sound_retryable h hphase (htrue (.inr rfl))

end

/-- Every event keeps the invariant, if what a store or a catalog answers is true. -/
theorem sound_next {e : Event} (h : Sound s) (hok : Truthful s e)
    (hnext : next lowerChar job s e = some s') : Sound s' := by
  cases e with
  | write records =>
    cases hnext
    exact sound_write h records
  | land put =>
    simp only [next] at hnext
    split_ifs at hnext with hcond
    cases hnext
    exact sound_land h hcond.1 hcond.2.1 hcond.2.2 hok
  | check seen =>
    simp only [next] at hnext
    split at hnext
    · rename_i hphase
      cases hnext
      apply h.enter (h.allDead fun put => by simp [MayLive, hphase])
      · intro aligned attempt put
        split_ifs <;> simp
      · intro hreturned
        split_ifs at hreturned with hrecorded
        exact recorded_served hrecorded
    · cases hnext
  | resolve seen =>
    simp only [next] at hnext
    split at hnext
    · rename_i aligned attempt hphase
      split_ifs at hnext
      all_goals
        cases hnext
        apply h.enter (h.allDead fun put => by simp [MayLive, hphase])
        · intro aligned attempt put
          simp
        · intro hreturned
          cases hreturned
    · cases hnext
  | stageFails realigns =>
    simp only [next] at hnext
    split at hnext
    · rename_i hphase
      cases hnext
      exact sound_stageFails h hphase realigns
    · cases hnext
  | send =>
    simp only [next] at hnext
    split at hnext
    · rename_i hphase
      cases hnext
      exact sound_send h hphase
    · cases hnext
  | answer report =>
    simp only [next] at hnext
    split at hnext
    · rename_i aligned attempt put hphase
      split_ifs at hnext with hpossible
      cases hnext
      exact sound_answer h hphase hpossible (hok put (by rw [hphase]; rfl))
    · cases hnext
  | race seen =>
    simp only [next] at hnext
    split at hnext
    · rename_i hphase
      cases hnext
      apply h.enter (h.allDead fun put => by simp [MayLive, hphase])
      · intro aligned attempt put
        split_ifs <;> simp
      · intro hreturned
        split_ifs at hreturned
    · cases hnext
  | landed seen =>
    simp only [next] at hnext
    split at hnext
    · rename_i hphase
      cases hnext
      apply h.enter (h.allDead fun put => by simp [MayLive, hphase])
      · intro aligned attempt put
        split_ifs <;> simp
      · intro hreturned
        split_ifs at hreturned with hrecorded
        obtain ⟨seen, -, hrecorded⟩ := Option.map_eq_some_iff.mp hrecorded
        exact recorded_served hrecorded
    · cases hnext
  | giveUp =>
    simp only [next] at hnext
    split at hnext
    · cases hnext
      exact ⟨h.own, h.fresh, h.gone, h.distinct, h.nodup,
        (fun _ _ hlive => absurd trivial hlive), h.single, h.cleaned,
        (fun _ _ _ hsent => nomatch hsent), fun hreturned => nomatch hreturned⟩
    · cases hnext
  | realign =>
    simp only [next] at hnext
    split at hnext
    · rename_i hphase
      split_ifs at hnext
      cases hnext
      apply h.enter (h.allDead fun put => by simp [MayLive, hphase])
      · intro aligned attempt put
        simp
      · intro hreturned
        cases hreturned
    · cases hnext

theorem sound_start (history : List Bool) : Sound (.start history) where
  own := fun attempt hmem => by simp [World.start] at hmem
  fresh := fun _ hput => nomatch hput
  gone := fun _ hmem => nomatch hmem
  distinct := .nil
  nodup := by
    rw [World.start, pairwise_map]
    exact pairwise_of_forall fun _ _ _ howned => nomatch howned
  dead := fun _ hput => nomatch hput
  single := fun _ hput => nomatch hput
  cleaned := fun _ hput => nomatch hput
  current := fun _ _ _ hsent => nomatch hsent
  served := fun hreturned => nomatch hreturned

end

/-- While the answers are true, the rows are added once and no file of the log is deleted. -/
theorem appended_once (lowerChar : Char → Text) (job : Job) (history : List Bool) :
    ∀ s, Run (next lowerChar job) Truthful (.start history) s → AddedOnce s :=
  fun _ hrun =>
    (hrun.invariant (sound_start history) fun _ _ _ h hok hnext => sound_next h hok hnext).addedOnce

/-- Another writer takes the version, and the second attempt lands. -/
def raced : List Event :=
  [.check 1, .resolve 1, .send, .write false, .answer .exists, .race (some 2), .resolve 2, .send,
    .land ⟨1, 2⟩, .answer .confirmed]

theorem raced_log : (replay (next (fun c => [c]) ⟨false, none⟩) Truthful (.start [false]) raced).map
    World.log = some [.foreign false, .foreign false, .own 1] := by
  decide +kernel

theorem appended_once_raced : ∃ s, s.log = [.foreign false, .foreign false, .own 1] ∧
    AddedOnce s := by
  obtain ⟨s, hs, hlog⟩ := Option.map_eq_some_iff.mp raced_log
  exact ⟨s, hlog, appended_once (fun c => [c]) ⟨false, none⟩ [false] s (.of_replay hs)⟩

/-- The first put is applied, its answer lost, and the put sent again finds the version there. -/
def resent : List Event :=
  [.check 1, .resolve 1, .send, .land ⟨0, 1⟩, .answer .exists, .race (some 2), .resolve 2, .send,
    .land ⟨1, 2⟩, .answer .confirmed]

theorem resent_world :
    (replay (next (fun c => [c]) ⟨false, none⟩) (fun _ _ => True) (.start [false])
    resent).map (fun s => (s.log, s.deleted, s.phase)) =
      some ([.foreign false, .own 0, .own 1], [0], .returned) := by
  decide +kernel

theorem resent_twice : ¬ ∀ s, Run (next (fun c => [c]) ⟨false, none⟩) (fun _ _ => True)
    (.start [false]) s → AddedOnce s := by
  intro h
  obtain ⟨s, hs, hworld⟩ := Option.map_eq_some_iff.mp resent_world
  have honce := (h s (.of_replay hs)).once
  have hlog : s.log = [.foreign false, .own 0, .own 1] := (Prod.ext_iff.mp hworld).1
  rw [hlog] at honce
  exact absurd honce (by decide)

end DeltaSwamp.Append
