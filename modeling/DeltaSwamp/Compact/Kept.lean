import DeltaSwamp.Compact.Run

/-!
# A compaction keeps the rows

Over any run beside other writers: every version the call commits has the bag
of rows of the version before it, no file is removed twice, and no file it
wrote is rewritten. Alone, it ends.
-/

namespace DeltaSwamp.Compact

open Table List

section
variable {ρ : Type} {upperChar lowerChar : Char → Text} {st : Storage ρ} {job : Job ρ}

/-- What a call committed changed no row, and no file went twice. -/
structure RowsKept (st : Storage ρ) (s : World) : Prop where
  bag : ∀ put ∈ s.committed, s.log[put.version]? = some put.entry ∧
    st.bag (files (s.log.take (put.version + 1))) = st.bag (files (s.log.take put.version))
  once : (s.committed.flatMap Put.removed).Nodup
  own : ∀ put ∈ s.committed, ∀ path ∈ put.written, path ∉ put.removed
  later : s.committed.Pairwise fun put put' => ∀ path ∈ put.written, path ∉ put'.removed

/-- The later put takes nothing the earlier one removed or wrote. -/
def Apart (put put' : Put) : Prop := ∀ path ∈ put.removed ++ put.written, path ∉ put'.removed

/-- The paths known to the call take in all its commits removed and wrote. -/
def Covers (committed : List Put) (known : List Path) : Prop :=
  ∀ put ∈ committed, ∀ path ∈ put.removed ++ put.written, path ∈ known

def Fresh (p : Progress) (step : List Bin) : Prop := ∀ path ∈ binPaths step, path ∉ p.done

/-- Where a put that may still land leaves the call. -/
def Pending (put : Put) : Phase → Prop
  | .sent _ _ put' => put' = put
  | .finished | .raised => True
  | _ => False

def PhaseSound (st : Storage ρ) (log : Log) (sent committed : List Put) : Phase → Prop
  | .plan p => Covers committed p.done
  | .ready p snapshot step =>
    Covers committed p.done ∧ snapshot <+: log ∧ Fits snapshot step ∧ Fresh p step
  | .sent p step put =>
    (∀ c ∈ committed, c = put ∨ ∀ path ∈ c.removed ++ c.written, path ∈ p.done) ∧
      put ∈ sent ∧ Built st step put ∧ Fits put.snapshot step ∧ Fresh p step
  | .lost p snapshot step _ => Covers committed p.done ∧ Fits snapshot step ∧ Fresh p step
  | .landed p snapshot step after =>
    Covers committed (p.done ++ binPaths step ++ newPaths snapshot after)
  | .finished | .raised => True

structure Sound (st : Storage ρ) (s : World) : Prop where
  valid : ValidLog st s.log
  sent : ∀ put ∈ s.sent, put.snapshot <+: s.log ∧ ∃ step, Built st step put
  committed : ∀ put ∈ s.committed, put ∈ s.sent ∧ s.log[put.version]? = some put.entry
  apart : s.committed.Pairwise Apart
  free : ∀ put ∈ s.sent, put.version = s.log.length →
    Pending put s.phase ∧ ∀ c ∈ s.committed, Apart c put
  phase : PhaseSound st s.log s.sent s.committed s.phase

theorem Covers.mono {committed : List Put} {known more : List Path} (h : Covers committed known)
    (hsub : known ⊆ more) : Covers committed more :=
  fun put hput path hpath => hsub (h put hput path hpath)

variable {step : List Bin} {put : Put} {p : Progress}

theorem Built.apart {c : Put} (h : Built st step put) (hfresh : Fresh p step)
    (hdone : ∀ path ∈ c.removed ++ c.written, path ∈ p.done) : Apart c put :=
  fun path hpath hremoved => hfresh path (h.removed path hremoved) (hdone path hpath)

theorem firstStep_sublist (batchBytes : Nat) (bins : List Bin) (budget : Nat) :
    (firstStep batchBytes bins budget).Sublist bins := by
  induction bins generalizing budget with
  | nil => exact List.Sublist.refl _
  | cons bin rest ih =>
    unfold firstStep
    dsimp only
    split_ifs
    · exact List.Sublist.cons_cons bin (nil_sublist rest)
    · exact List.Sublist.cons_cons bin (ih _)

theorem firstStep_ne_nil {batchBytes : Nat} {bins : List Bin} {budget : Nat} (h : bins ≠ []) :
    firstStep batchBytes bins budget ≠ [] := by
  cases bins with
  | nil => exact absurd rfl h
  | cons bin rest =>
    unfold firstStep
    dsimp only
    split_ifs <;> simp

theorem binPaths_sublist {bins : List Bin} (h : step.Sublist bins) :
    (binPaths step).Sublist (binPaths bins) := by
  rw [binPaths, binPaths, flatMap_def, flatMap_def]
  exact (h.map Bin.paths).flatten

variable {snapshot : Log}

theorem fits_of_plan (hvalid : st.Valid snapshot) (hbins : job.plan p.done snapshot ≠ []) :
    Fits snapshot (firstStep job.batchBytes (job.plan p.done snapshot) 0) ∧
      Fresh p (firstStep job.batchBytes (job.plan p.done snapshot) 0) := by
  have hsub := binPaths_sublist (firstStep_sublist job.batchBytes (job.plan p.done snapshot) 0)
  have hmem : ∀ path ∈ binPaths (firstStep job.batchBytes (job.plan p.done snapshot) 0),
      path ∉ p.done ∧ ∃ f ∈ files snapshot, f.path = path :=
    fun path hpath => mem_binPaths (hsub.subset hpath)
  refine ⟨⟨(nodup_binPaths hvalid.nodup).sublist hsub, fun path hpath => ?_, ?_⟩, fun path hpath =>
    (hmem path hpath).1⟩
  · exact mem_map.mpr (hmem path hpath).2
  · have hstep : firstStep job.batchBytes (job.plan p.done snapshot) 0 ≠ [] :=
      firstStep_ne_nil hbins
    obtain ⟨bin, hbin⟩ := exists_mem_of_ne_nil _ hstep
    have hne := bin_ne_nil ((firstStep_sublist job.batchBytes _ 0).subset hbin)
    obtain ⟨path, hpath⟩ := exists_mem_of_ne_nil _ hne
    exact ne_nil_of_mem (mem_flatMap.mpr ⟨bin, hbin, hpath⟩)

theorem live_of_vectorOf {path : Path} (h : (vectorOf snapshot path).isSome = true) :
    path ∈ (files snapshot).map AddFile.path := by
  rw [vectorOf, Option.isSome_map, List.getLast?_isSome] at h
  obtain ⟨f, hf⟩ := exists_mem_of_ne_nil _ h
  obtain ⟨hf, hpath⟩ := mem_filter.mp hf
  exact mem_map.mpr ⟨f, hf, by simpa using hpath⟩

theorem fits_of_rebase {read fresh result : Log} (hfits : Fits read step)
    (h : rebaseDvCommit upperChar lowerChar (fun _ _ => true) read fresh (binPaths step) none
      true = .ok (some result)) : result = fresh ∧ Fits fresh step := by
  obtain ⟨rfl, -, -, -, -, hvectors, -⟩ := rebaseDvCommit_eq_some_iff.mp h
  refine ⟨rfl, hfits.nodup, fun path hpath => ?_, hfits.nonempty⟩
  obtain ⟨hsome, hsame⟩ := vectorsUnchanged_iff.mp hvectors path hpath
  exact live_of_vectorOf (hsame ▸ hsome)

variable {log : Log}

theorem take_of_isPrefix (h : snapshot <+: log) :
    log.take snapshot.length = snapshot := (prefix_iff_eq_take.mp h).symm

theorem take_landed (h : put.snapshot <+: log) (hentry : log[put.version]? = some put.entry) :
    log.take (put.version + 1) = put.snapshot ++ [put.entry] := by
  rw [take_add_one, hentry, Put.version, take_of_isPrefix h]
  rfl

theorem version_le (h : put.snapshot <+: log) : put.version ≤ log.length := h.length_le

theorem getElem?_append_of_some {more : Log} {n : Nat} {entry : Entry} (h : log[n]? = some entry) :
    (log ++ more)[n]? = some entry := by
  have hlt : n < log.length := (List.getElem?_eq_some_iff.mp h).1
  rw [List.getElem?_append_left hlt, h]

/-- Nothing is on its way to the next version. -/
def Settled (s : World) : Prop := ∀ put ∈ s.sent, put.version ≠ s.log.length

variable {s : World}

theorem Sound.settled (h : Sound st s) (hphase : ∀ put, ¬Pending put s.phase) : Settled s :=
  fun put hput hfree => hphase put (h.free put hput hfree).1

variable {phase : Phase}

theorem Sound.rephase (h : Sound st s) (hsettled : Settled s)
    (hphase : PhaseSound st s.log s.sent s.committed phase) : Sound st { s with phase } where
  valid := h.valid
  sent := h.sent
  committed := h.committed
  apart := h.apart
  free := fun put hput hfree => absurd hfree (hsettled put hput)
  phase := hphase

theorem PhaseSound.grow {sent committed : List Put} (h : PhaseSound st log sent committed phase)
    (entry : Entry) : PhaseSound st (log ++ [entry]) sent committed phase := by
  cases phase with
  | ready p snapshot step =>
    obtain ⟨hcovers, hbefore, hfits, hfresh⟩ := h
    exact ⟨hcovers, hbefore.trans (prefix_append _ _), hfits, hfresh⟩
  | plan p => exact h
  | sent p step put => exact h
  | lost p snapshot step missing => exact h
  | landed p snapshot step after => exact h
  | finished => exact h
  | raised => exact h

theorem Sound.write (h : Sound st s) {entry : Entry} (hvalid : st.Valid (s.log ++ [entry])) :
    Sound st { s with log := s.log ++ [entry] } where
  valid := h.valid.append hvalid
  sent := by
    intro put hput
    obtain ⟨hbefore, hbuilt⟩ := h.sent put hput
    exact ⟨hbefore.trans (prefix_append _ _), hbuilt⟩
  committed := by
    intro put hput
    obtain ⟨hsent, hentry⟩ := h.committed put hput
    exact ⟨hsent, getElem?_append_of_some hentry⟩
  apart := h.apart
  free := by
    intro put hput hfree
    have hle := version_le (h.sent put hput).1
    simp only [length_append, length_singleton] at hfree
    omega
  phase := h.phase.grow entry

theorem Sound.land (h : Sound st s) (hput : put ∈ s.sent) (hversion : put.version = s.log.length) :
    Sound st { s with log := s.log ++ [put.entry], committed := s.committed ++ [put] } := by
  obtain ⟨hbefore, step, hbuilt⟩ := h.sent put hput
  have hsnapshot : put.snapshot = s.log := hbefore.eq_of_length hversion
  have hvalid : st.Valid (s.log ++ [put.entry]) := hsnapshot ▸ hbuilt.valid
  obtain ⟨hpending, hapart⟩ := h.free put hput hversion
  have hwritten := h.write hvalid
  refine ⟨hwritten.valid, hwritten.sent, ?_, ?_, ?_, ?_⟩
  · intro c hc
    rcases mem_append.mp hc with hc | hc
    · exact hwritten.committed c hc
    · obtain rfl := mem_singleton.mp hc
      refine ⟨hput, ?_⟩
      rw [hversion]
      simp
  · rw [pairwise_append]
    refine ⟨h.apart, pairwise_singleton _ _, fun c hc put' hput' => ?_⟩
    obtain rfl := mem_singleton.mp hput'
    exact hapart c hc
  · intro put' hput' hfree
    have hle := version_le (h.sent put' hput').1
    simp only [length_append, length_singleton] at hfree
    omega
  · have hphase := hwritten.phase
    revert hpending hphase
    cases s.phase with
    | sent p step' put' =>
      rintro rfl ⟨hdone, hrest⟩
      refine ⟨fun c hc => ?_, hrest⟩
      rcases mem_append.mp hc with hc | hc
      · exact hdone c hc
      · exact .inl (mem_singleton.mp hc)
    | plan p => exact fun hpending => hpending.elim
    | ready p snapshot step' => exact fun hpending => hpending.elim
    | lost p snapshot step' missing => exact fun hpending => hpending.elim
    | landed p snapshot step' after => exact fun hpending => hpending.elim
    | finished => exact fun _ _ => trivial
    | raised => exact fun _ _ => trivial

theorem Sound.send (h : Sound st s) (hphase : s.phase = .ready p put.snapshot step)
    (hbuilt : Built st step put) :
    Sound st { s with phase := .sent p step put, sent := put :: s.sent } := by
  have hsettled := h.settled fun _ hpending => by rw [hphase] at hpending; exact hpending
  have hready := h.phase
  rw [hphase] at hready
  obtain ⟨hcovers, hbefore, hfits, hfresh⟩ := hready
  refine ⟨h.valid, ?_, ?_, h.apart, ?_, ?_⟩
  · intro put' hput'
    rcases mem_cons.mp hput' with rfl | hput'
    · exact ⟨hbefore, step, hbuilt⟩
    · exact h.sent put' hput'
  · intro c hc
    obtain ⟨hsent, hentry⟩ := h.committed c hc
    exact ⟨mem_cons_of_mem put hsent, hentry⟩
  · intro put' hput' hfree
    rcases mem_cons.mp hput' with rfl | hput'
    · exact ⟨rfl, fun c hc => hbuilt.apart hfresh (hcovers c hc)⟩
    · exact absurd hfree (hsettled put' hput')
  · exact ⟨fun c hc => .inr (hcovers c hc), mem_cons_self, hbuilt, hfits, hfresh⟩

theorem conflicted_sound {missing : Bool}
    (h : PhaseSound st s.log s.sent s.committed (.lost p snapshot step missing)) :
    PhaseSound st s.log s.sent s.committed (conflicted job p snapshot step missing) := by
  unfold conflicted
  split_ifs
  · trivial
  · exact h

theorem planned_sound (h : Sound st s) (hcovers : Covers s.committed p.done) (seen : Nat) :
    PhaseSound st s.log s.sent s.committed (planned job p (s.log.take seen)) := by
  unfold planned
  dsimp only
  split_ifs with hrefused hbins
  · trivial
  · trivial
  · obtain ⟨hfits, hfresh⟩ := fits_of_plan (h.valid seen) hbins
    exact ⟨hcovers, take_prefix _ _, hfits, hfresh⟩

theorem rebased_sound {missing : Bool}
    (h : PhaseSound st s.log s.sent s.committed (.lost p snapshot step missing)) (seen : Nat) :
    PhaseSound st s.log s.sent s.committed
      (rebased upperChar lowerChar p snapshot (s.log.take seen) step missing) := by
  obtain ⟨hcovers, hfits, hfresh⟩ := h
  unfold rebased
  cases hrebase : rebaseDvCommit upperChar lowerChar (fun _ _ => true) snapshot (s.log.take seen)
    (binPaths step) none true with
  | error e => trivial
  | ok result =>
    cases result with
    | none => exact hcovers
    | some fresh =>
      obtain ⟨rfl, hfits⟩ := fits_of_rebase hfits hrebase
      by_cases hmissing : missing = true
      · simp only [hmissing, if_true]
        trivial
      · simp only [hmissing]
        exact ⟨hcovers, take_prefix _ _, hfits, hfresh⟩

theorem conflict_sound (h : Sound st s) (hphase : s.phase = .sent p step put)
    (hlost : s.log[put.version]? ≠ some put.entry) :
    PhaseSound st s.log s.sent s.committed (.lost p put.snapshot step false) := by
  have hsent := h.phase
  rw [hphase] at hsent
  obtain ⟨hdone, -, -, hfits, hfresh⟩ := hsent
  refine ⟨fun c hc => ?_, hfits, hfresh⟩
  rcases hdone c hc with rfl | hdone
  · exact absurd (h.committed c hc).2 hlost
  · exact hdone

theorem accepted_sound (h : Sound st s) (hphase : s.phase = .sent p step put)
    (hentry : s.log[put.version]? = some put.entry) :
    PhaseSound st s.log s.sent s.committed
      (.landed p put.snapshot step (s.log.take (put.version + 1))) := by
  have hsent := h.phase
  rw [hphase] at hsent
  obtain ⟨hdone, hput, hbuilt, -, -⟩ := hsent
  rw [take_landed (h.sent put hput).1 hentry]
  intro c hc path hpath
  rcases hdone c hc with rfl | hdone
  · rcases mem_append.mp hpath with hpath | hpath
    · simp [hbuilt.removed path hpath]
    · exact mem_append_right _ hpath
  · simp [hdone path hpath]

theorem Settled.of_lt (h : Sound st s) (hphase : s.phase = .sent p step put)
    (hlt : put.version < s.log.length) : Settled s := by
  intro put' hput' hfree
  have hpending := (h.free put' hput' hfree).1
  rw [hphase] at hpending
  obtain rfl : put = put' := hpending
  omega

/-- What a step of the call alone does to its phase. -/
inductive Advanced (upperChar lowerChar : Char → Text) (job : Job ρ) (log : Log) :
    Phase → Event → Phase → Prop where
  | plan (p : Progress) (seen : Nat) : Advanced upperChar lowerChar job log (.plan p) (.plan seen)
      (planned job p (log.take seen))
  | accepted (p : Progress) (step : List Bin) (put : Put)
      (h : log[put.version]? = some put.entry) :
      Advanced upperChar lowerChar job log (.sent p step put) .accepted
        (.landed p put.snapshot step (log.take (put.version + 1)))
  | conflict (p : Progress) (step : List Bin) (put : Put) (h : put.version < log.length)
      (hlost : log[put.version]? ≠ some put.entry) :
      Advanced upperChar lowerChar job log (.sent p step put) .conflict
        (conflicted job p put.snapshot step false)
  | missing (p : Progress) (snapshot : Log) (step : List Bin) :
      Advanced upperChar lowerChar job log (.ready p snapshot step) .missing
        (conflicted job p snapshot step true)
  | rebase (p : Progress) (snapshot : Log) (step : List Bin) (missing : Bool) (seen : Nat) :
      Advanced upperChar lowerChar job log (.lost p snapshot step missing) (.rebase seen)
        (rebased upperChar lowerChar p snapshot (log.take seen) step missing)
  | cannotTell (p : Progress) (snapshot : Log) (step : List Bin) (missing : Bool) :
      Advanced upperChar lowerChar job log (.lost p snapshot step missing) .cannotTell (.plan p)
  | settle (p : Progress) (snapshot : Log) (step : List Bin) (after : Log) :
      Advanced upperChar lowerChar job log (.landed p snapshot step after) .settle
        (settled p snapshot step after)
  | raise (phase : Phase) (h : phase.active = true) :
      Advanced upperChar lowerChar job log phase .raise .raised

variable {e : Event}

/-- All that an advance can do. -/
theorem advance_cases {after : Phase}
    (h : advance upperChar lowerChar job log phase e = some after) :
    Advanced upperChar lowerChar job log phase e after := by
  cases e with
  | raise =>
    have hraise : (if phase.active then some Phase.raised else none) = some after := by
      cases phase <;> exact h
    split_ifs at hraise with hactive
    cases hraise
    exact .raise phase hactive
  | write entry => cases phase <;> cases h
  | land put => cases phase <;> cases h
  | commit w => cases phase <;> cases h
  | plan seen =>
    cases phase with
    | plan p =>
      cases h
      exact .plan p seen
    | _ => cases h
  | accepted =>
    cases phase with
    | sent p step put =>
      simp only [advance] at h
      split_ifs at h with hentry
      cases h
      exact .accepted p step put hentry
    | _ => cases h
  | conflict =>
    cases phase with
    | sent p step put =>
      simp only [advance] at h
      split_ifs at h with hlost
      cases h
      exact .conflict p step put hlost.1 hlost.2
    | _ => cases h
  | missing =>
    cases phase with
    | ready p snapshot step =>
      cases h
      exact .missing p snapshot step
    | _ => cases h
  | rebase seen =>
    cases phase with
    | lost p snapshot step missing =>
      cases h
      exact .rebase p snapshot step missing seen
    | _ => cases h
  | cannotTell =>
    cases phase with
    | lost p snapshot step missing =>
      cases h
      exact .cannotTell p snapshot step missing
    | _ => cases h
  | settle =>
    cases phase with
    | landed p snapshot step after =>
      cases h
      exact .settle p snapshot step after
    | _ => cases h

theorem Sound.pending_raised (h : Sound st s) : Sound st { s with phase := .raised } where
  valid := h.valid
  sent := h.sent
  committed := h.committed
  apart := h.apart
  free := fun put hput hfree => ⟨trivial, (h.free put hput hfree).2⟩
  phase := trivial

theorem Sound.advanced (h : Sound st s) {after : Phase}
    (hstep : Advanced upperChar lowerChar job s.log s.phase e after) :
    Sound st { s with phase := after } := by
  have hphase := h.phase
  have hquiet : (∀ put, ¬Pending put s.phase) → Settled s := h.settled
  generalize hs : s.phase = phase at hstep hphase hquiet
  cases hstep with
  | plan p seen => exact h.rephase (hquiet fun _ => id) (planned_sound h hphase seen)
  | accepted p step put hentry =>
    have hlt := (List.getElem?_eq_some_iff.mp hentry).1
    exact h.rephase (.of_lt h hs hlt) (accepted_sound h hs hentry)
  | conflict p step put hlt hlost =>
    exact h.rephase (.of_lt h hs hlt) (conflicted_sound (conflict_sound h hs hlost))
  | missing p snapshot step =>
    obtain ⟨hcovers, -, hfits, hfresh⟩ := hphase
    have hlost : PhaseSound st s.log s.sent s.committed (.lost p snapshot step true) :=
      ⟨hcovers, hfits, hfresh⟩
    exact h.rephase (hquiet fun _ => id) (conflicted_sound hlost)
  | rebase p snapshot step missing seen =>
    exact h.rephase (hquiet fun _ => id) (rebased_sound hphase seen)
  | cannotTell p snapshot step missing => exact h.rephase (hquiet fun _ => id) hphase.1
  | settle p snapshot step after => exact h.rephase (hquiet fun _ => id) hphase
  | raise _ hactive => exact h.pending_raised

theorem Sound.init (h : ValidLog st log) : Sound st (World.init log) where
  valid := h
  sent := fun _ hput => nomatch hput
  committed := fun _ hput => nomatch hput
  apart := .nil
  free := fun _ hput => nomatch hput
  phase := fun _ hput => nomatch hput

theorem Sound.rowsKept (h : Sound st s) : RowsKept st s where
  bag := by
    intro put hput
    obtain ⟨hsent, hentry⟩ := h.committed put hput
    obtain ⟨hbefore, step, hbuilt⟩ := h.sent put hsent
    refine ⟨hentry, ?_⟩
    rw [take_landed hbefore hentry, Put.version, take_of_isPrefix hbefore]
    exact hbuilt.bag
  once := by
    rw [nodup_flatMap]
    constructor
    · intro put hput
      obtain ⟨-, step, hbuilt⟩ := h.sent put (h.committed put hput).1
      exact hbuilt.nodup
    · exact h.apart.imp fun hapart path hpath =>
        hapart path (mem_append_left _ hpath)
  own := by
    intro put hput path hwritten hremoved
    obtain ⟨-, step, hbuilt⟩ := h.sent put (h.committed put hput).1
    have hnew := (mem_filter.mp hwritten).2
    rw [decide_eq_true_eq] at hnew
    exact hnew (hbuilt.live path hremoved)
  later := h.apart.imp fun hapart path hpath => hapart path (mem_append_right _ hpath)

variable [DecidableEq ρ]

theorem Sound.commit (h : Sound st s) (hphase : s.phase = .ready p snapshot step)
    {w : Storage.Written} {made : Phase × Option Put}
    (hmade : committing st job p snapshot step w = some made) :
    Sound st { s with phase := made.1, sent := made.2.toList ++ s.sent } := by
  have hsettled := h.settled fun _ hpending => by rw [hphase] at hpending; exact hpending
  have hready := h.phase
  rw [hphase] at hready
  obtain ⟨hcovers, hbefore, hfits, hfresh⟩ := hready
  obtain rfl | rfl | ⟨put, rfl, rfl, hbuilt⟩ := committing_cases hmade
  · exact h.pending_raised
  · have hlanded : PhaseSound st s.log s.sent s.committed (.landed p snapshot step snapshot) :=
      hcovers.mono fun path hpath => by simp [hpath]
    exact h.rephase hsettled hlanded
  · have hvalid : st.Valid put.snapshot := by
      rw [← take_of_isPrefix hbefore]
      exact h.valid _
    exact h.send hphase (hbuilt hvalid hfits)

/-- Every event keeps the invariant. -/
theorem Sound.next {t : World} (h : Sound st s)
    (hnext : next upperChar lowerChar st job s e = some t) : Sound st t := by
  have hadvance : (Compact.advance upperChar lowerChar job s.log s.phase e).map
      (fun phase => { s with phase }) = some t → Sound st t := by
    intro hstep
    obtain ⟨after, hafter, rfl⟩ := Option.map_eq_some_iff.mp hstep
    exact h.advanced (advance_cases hafter)
  cases e with
  | write entry =>
    simp only [Compact.next] at hnext
    split_ifs at hnext with hvalid
    cases hnext
    exact h.write hvalid
  | land put =>
    simp only [Compact.next] at hnext
    split_ifs at hnext with hput
    cases hnext
    exact h.land hput.1 hput.2
  | commit w =>
    simp only [Compact.next] at hnext
    cases hphase : s.phase with
    | ready p snapshot step =>
      rw [hphase] at hnext
      obtain ⟨made, hmade, rfl⟩ := Option.map_eq_some_iff.mp hnext
      exact h.commit hphase hmade
    | _ =>
      rw [hphase] at hnext
      cases hnext
  | plan seen => exact hadvance hnext
  | accepted => exact hadvance hnext
  | conflict => exact hadvance hnext
  | missing => exact hadvance hnext
  | rebase seen => exact hadvance hnext
  | cannotTell => exact hadvance hnext
  | settle => exact hadvance hnext
  | raise => exact hadvance hnext

end

end DeltaSwamp.Compact
