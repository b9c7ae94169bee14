import DeltaSwamp.Commit.Staging

/-!
# Every file of a staged stream is accounted for

What holds throughout a call of `stage_stream`, and what its return says of
the transaction's adds and of the files recorded for clean-up.
-/

namespace DeltaSwamp.Commit

open List

variable {Values Data Context : Type}

theorem settle_ok {write : Write} {written : List Text} {batch : AddBatch} {after : List Text}
    (h : settle write written = .ok (batch, after)) :
    write = .done (.arrow batch) ∧ ∃ paths, batchPaths batch = .ok paths ∧
      after = written ++ paths := by
  cases write with
  | done metadata =>
    obtain ⟨b, hbatch, h⟩ := Result.bind_eq_ok_iff.mp h
    obtain ⟨paths, hpaths, h⟩ := Result.bind_eq_ok_iff.mp h
    cases Result.pure_eq_ok_iff.mp h
    cases metadata with
    | arrow b' =>
      cases hbatch
      exact ⟨rfl, paths, hpaths, rfl⟩
    | other => cases hbatch
  | failed e => cases h
  | panicked shown => cases h

theorem settle_file {write : Write} {file : Text} (h : write.file = some file)
    (written : List Text) :
    ∃ batch, settle write written = .ok (batch, written ++ [file]) := by
  unfold Write.file at h
  split at h
  · cases h
    exact ⟨_, rfl⟩
  · cases h

theorem file_of_reports {metadata : EngineData} (h : (Write.done metadata).reports = true) :
    ∃ file, metadata = .arrow ⟨.texts [some file]⟩ := by
  unfold Write.reports at h
  split at h
  · rename_i file heq
    cases heq
    exact ⟨file, rfl⟩
  · cases h
  · rename_i heq
    cases heq
  · rename_i heq
    cases heq

namespace Staging
variable (s : Staging Values Data Context)

theorem finish_cases (write : Write) :
    (∃ e, settle write s.written = .error e ∧ s.finish write = s.goTo (.failed e)) ∨
      ∃ batch paths, write = .done (.arrow batch) ∧ batchPaths batch = .ok paths ∧
        s.finish write = { s with adds := s.adds ++ [batch], written := s.written ++ paths } := by
  cases h : settle write s.written with
  | error e => exact .inl ⟨e, rfl, by rw [finish, h]⟩
  | ok settled =>
    obtain ⟨batch, after⟩ := settled
    obtain ⟨hwrite, paths, hpaths, hafter⟩ := settle_ok h
    exact .inr ⟨batch, paths, hwrite, hpaths, by rw [finish, h, hafter]⟩

@[simp] theorem finish_inflight (write : Write) : (s.finish write).inflight = s.inflight := by
  unfold finish
  split <;> rfl

@[simp] theorem finish_inflightBytes (write : Write) :
    (s.finish write).inflightBytes = s.inflightBytes := by
  unfold finish
  split <;> rfl

@[simp] theorem finish_spawned (write : Write) : (s.finish write).spawned = s.spawned := by
  unfold finish
  split <;> rfl

theorem finish_point (write : Write) :
    (s.finish write).point = s.point ∨ ∃ e, (s.finish write).point = .failed e := by
  obtain ⟨e, -, hfinish⟩ | ⟨batch, paths, -, -, hfinish⟩ := s.finish_cases write
  · exact .inr ⟨e, by rw [hfinish]; rfl⟩
  · exact .inl (by rw [hfinish])

theorem drain_cases (write : Write) :
    ∃ written, s.drain write = { s with written } ∧ s.written ⊆ written := by
  cases write with
  | done metadata =>
    cases h : trackWritten metadata s.written with
    | error e => exact ⟨s.written, by rw [drain, h], List.Subset.refl _⟩
    | ok tracked =>
      obtain ⟨batch, after⟩ := tracked
      obtain ⟨-, paths, -, hafter⟩ := @settle_ok (.done metadata) s.written batch after h
      exact ⟨after, by rw [drain, h], hafter ▸ subset_append_left _ _⟩
  | failed e => exact ⟨s.written, rfl, List.Subset.refl _⟩
  | panicked shown => exact ⟨s.written, rfl, List.Subset.refl _⟩

@[simp] theorem drain_point (write : Write) : (s.drain write).point = s.point := by
  obtain ⟨written, h, -⟩ := s.drain_cases write
  rw [h]

@[simp] theorem drain_inflight (write : Write) : (s.drain write).inflight = s.inflight := by
  obtain ⟨written, h, -⟩ := s.drain_cases write
  rw [h]

@[simp] theorem drain_spawned (write : Write) : (s.drain write).spawned = s.spawned := by
  obtain ⟨written, h, -⟩ := s.drain_cases write
  rw [h]

theorem finish_written (write : Write) :
    s.written ⊆ (s.finish write).written ∧
      ∀ file, write.file = some file → file ∈ (s.finish write).written := by
  constructor
  · unfold finish
    split
    · exact List.Subset.refl _
    · rename_i h
      obtain ⟨-, paths, -, rfl⟩ := settle_ok h
      exact subset_append_left _ _
  · intro file hfile
    obtain ⟨batch, h⟩ := settle_file hfile s.written
    rw [finish, h]
    simp

theorem drain_written (write : Write) :
    s.written ⊆ (s.drain write).written ∧
      ∀ file, write.file = some file → file ∈ (s.drain write).written := by
  constructor
  · obtain ⟨written, h, hkept⟩ := s.drain_cases write
    rw [h]
    exact hkept
  · intro file hfile
    cases write with
    | done metadata =>
      obtain ⟨batch, h⟩ := settle_file hfile s.written
      rw [settle] at h
      rw [drain, h]
      simp
    | failed e => cases hfile
    | panicked shown => cases hfile

end Staging

section
variable {lib : Stager Values Data Context} {s t : Staging Values Data Context} {write : Write}

/-- The steps of `stage_stream`, each with the state it leaves. -/
inductive Moves (lib : Stager Values Data Context) (s : Staging Values Data Context)
    (write : Write) : Staging Values Data Context → Prop where
  | fails (e : NativeError) (hpoint : s.point.Looping) : Moves lib s write (s.goTo (.failed e))
  | opens {context : Context} {group : Group Values Data} {groups : List (Group Values Data)}
      {batches : List Data} {stream : Stream Data}
      (hpoint : s.point = .looping (group :: groups) batches stream) :
      Moves lib s write (s.goTo (.room context group groups batches stream))
  | splits {batch : Data} {groups : List (Group Values Data)} {batches : List Data}
      {stream : Stream Data} (hpoint : s.point = .looping [] (batch :: batches) stream)
      (hgroups : lib.groups batch = .ok groups) :
      Moves lib s write (s.goTo (.looping groups batches stream))
  | pulls {batches : List Data} {stream : Stream Data}
      (hpoint : s.point = .looping [] [] (.ok batches :: stream)) :
      Moves lib s write (s.goTo (.looping [] batches stream))
  | ends (hpoint : s.point = .looping [] [] []) : Moves lib s write (s.goTo .last)
  | waits {oldest : Write} {size : Nat} {inflight : List (Write × Nat)}
      (hpoint : s.point.Looping) (hinflight : s.inflight = (oldest, size) :: inflight) :
      Moves lib s write
        ({ s with inflight, inflightBytes := s.inflightBytes - size }.finish oldest)
  | spawns {context : Context} {group : Group Values Data} {groups : List (Group Values Data)}
      {batches : List Data} {stream : Stream Data}
      (hpoint : s.point = .room context group groups batches stream)
      (hroom : s.inflight = [] ∨ Stager.full s (lib.memorySize group.2) = false) :
      Moves lib s write
        (s.spawn group (lib.memorySize group.2) write (.looping groups batches stream))
  | collects {oldest : Write} {size : Nat} {inflight : List (Write × Nat)}
      (hpoint : s.point = .last) (hinflight : s.inflight = (oldest, size) :: inflight) :
      Moves lib s write ({ s with inflight }.finish oldest)
  | succeeds (hpoint : s.point = .last) (hinflight : s.inflight = []) :
      Moves lib s write (s.goTo (.returned (.ok ())))
  | drains {e : NativeError} {oldest : Write} {size : Nat} {inflight : List (Write × Nat)}
      (hpoint : s.point = .failed e) (hinflight : s.inflight = (oldest, size) :: inflight) :
      Moves lib s write ({ s with inflight }.drain oldest)
  | givesUp {e : NativeError} (hpoint : s.point = .failed e) (hinflight : s.inflight = []) :
      Moves lib s write (s.goTo (.returned (.error e)))

/-- All that a step can do. -/
theorem moves_of_step (h : lib.step s write = some t) : Moves lib s write t := by
  have hlooping : ∀ point, s.point = point → point.Looping → s.point.Looping :=
    fun point hpoint hrun => hpoint ▸ hrun
  unfold Stager.step at h
  split at h
  · rename_i group groups batches stream hpoint
    split at h <;> cases h
    · exact .fails _ (hlooping _ hpoint trivial)
    · exact .opens hpoint
  · rename_i batch batches stream hpoint
    split at h
    · cases h
      exact .fails _ (hlooping _ hpoint trivial)
    · rename_i groups hgroups
      cases h
      exact .splits hpoint hgroups
  · rename_i hpoint
    cases h
    exact .fails _ (hlooping _ hpoint trivial)
  · rename_i hpoint
    cases h
    exact .pulls hpoint
  · rename_i hpoint
    cases h
    exact .ends hpoint
  · rename_i context group groups batches stream hpoint
    split at h
    · rename_i hinflight
      cases h
      exact .spawns hpoint (.inl hinflight)
    · rename_i oldest size inflight hinflight
      split_ifs at h with hfull
      · cases h
        exact .waits (hlooping _ hpoint trivial) hinflight
      · cases h
        exact .spawns hpoint (.inr (by simpa using hfull))
  · rename_i hpoint
    split at h
    · rename_i hinflight
      cases h
      exact .succeeds hpoint hinflight
    · rename_i oldest size inflight hinflight
      cases h
      exact .collects hpoint hinflight
  · rename_i e hpoint
    split at h
    · rename_i hinflight
      cases h
      exact .givesUp hpoint hinflight
    · rename_i oldest size inflight hinflight
      cases h
      exact .drains hpoint hinflight
  · cases h

/-- The two limits on the writes running, and the counter of their bytes. -/
structure Bounded (s : Staging Values Data Context) : Prop where
  counter : s.point.Looping → s.inflightBytes = s.bytes
  few : s.inflight.length ≤ writeFiles
  small : s.bytes ≤ writeBytes ∨ s.inflight.length ≤ 1

variable {point : Point Values Data Context}

theorem Bounded.goTo (h : Bounded s) (hpoint : point.Looping → s.point.Looping) :
    Bounded (s.goTo point) where
  counter hrun := h.counter (hpoint hrun)
  few := h.few
  small := h.small

variable {oldest : Write} {size : Nat} {inflight : List (Write × Nat)}

theorem Bounded.pop (h : Bounded s) (hinflight : s.inflight = (oldest, size) :: inflight) :
    inflight.length ≤ writeFiles ∧
      ((inflight.map Prod.snd).sum ≤ writeBytes ∨ inflight.length ≤ 1) := by
  have hlength : s.inflight.length = inflight.length + 1 := by rw [hinflight, length_cons]
  have hbytes : s.bytes = size + (inflight.map Prod.snd).sum := by
    rw [Staging.bytes, hinflight, map_cons, sum_cons]
  refine ⟨by have := h.few; omega, ?_⟩
  rcases h.small with hsmall | hone
  · exact .inl (by omega)
  · exact .inr (by omega)

theorem Bounded.size_le (h : Bounded s) (hpoint : s.point.Looping)
    (hinflight : s.inflight = (oldest, size) :: inflight) :
    size ≤ s.inflightBytes ∧ s.inflightBytes - size = (inflight.map Prod.snd).sum := by
  have hcounter := h.counter hpoint
  rw [Staging.bytes, hinflight, map_cons, sum_cons] at hcounter
  constructor <;> omega

theorem Bounded.moves (h : Bounded s) (hmoves : Moves lib s write t) : Bounded t := by
  cases hmoves with
  | fails e hpoint => exact h.goTo fun hrun => hpoint
  | opens hpoint => exact h.goTo fun _ => by rw [hpoint]; trivial
  | splits hpoint hgroups => exact h.goTo fun _ => by rw [hpoint]; trivial
  | pulls hpoint => exact h.goTo fun _ => by rw [hpoint]; trivial
  | ends hpoint => exact h.goTo False.elim
  | waits hpoint hinflight =>
    obtain ⟨hfew, hsmall⟩ := h.pop hinflight
    obtain ⟨-, hcounter⟩ := h.size_le hpoint hinflight
    exact ⟨fun _ => by simpa [Staging.bytes] using hcounter, by simpa using hfew,
      by simpa [Staging.bytes] using hsmall⟩
  | @spawns context group groups batches stream hpoint hroom =>
    have hcounter : s.inflightBytes = s.bytes := h.counter (by rw [hpoint]; trivial)
    have hbytes : (s.spawn group (lib.memorySize group.2) write
        (.looping groups batches stream)).bytes = s.bytes + lib.memorySize group.2 := by
      simp [Staging.spawn, Staging.bytes]
    have hlength : (s.spawn group (lib.memorySize group.2) write
        (.looping groups batches stream)).inflight.length = s.inflight.length + 1 := by
      simp [Staging.spawn]
    refine ⟨fun _ => ?_, ?_, ?_⟩
    · rw [hbytes, ← hcounter]
      rfl
    · rcases hroom with hempty | hroom
      · simp [hlength, hempty, writeFiles]
      · simp only [Stager.full, Bool.or_eq_false_iff, decide_eq_false_iff_not] at hroom
        omega
    · rcases hroom with hempty | hroom
      · exact .inr (by simp [hlength, hempty])
      · simp only [Stager.full, Bool.or_eq_false_iff, decide_eq_false_iff_not] at hroom
        exact .inl (by omega)
  | collects hpoint hinflight =>
    obtain ⟨hfew, hsmall⟩ := h.pop hinflight
    refine ⟨fun hrun => ?_, by simpa using hfew, by simpa [Staging.bytes] using hsmall⟩
    rcases Staging.finish_point { s with inflight := _ } _ with hsame | ⟨e, hfailed⟩
    · rw [hsame, hpoint] at hrun
      exact hrun.elim
    · rw [hfailed] at hrun
      exact hrun.elim
  | succeeds hpoint hinflight => exact h.goTo False.elim
  | drains hpoint hinflight =>
    obtain ⟨hfew, hsmall⟩ := h.pop hinflight
    refine ⟨fun hrun => ?_, by simpa using hfew, by simpa [Staging.bytes] using hsmall⟩
    rw [Staging.drain_point] at hrun
    exact absurd hrun (by rw [hpoint]; exact id)
  | givesUp hpoint hinflight => exact h.goTo False.elim

/-- Every file made is recorded, or its write is still waited for. -/
structure Tracked (s : Staging Values Data Context) : Prop where
  reports : ∀ made ∈ s.spawned, made.2.reports = true
  tracked : ∀ made ∈ s.spawned, ∀ file, made.2.file = some file →
    file ∈ s.written ∨ made.2 ∈ s.inflight.map Prod.fst
  emptied : ∀ result, s.point = .returned result → s.inflight = []

theorem Tracked.goTo (h : Tracked s)
    (hpoint : ∀ result, point = .returned result → s.inflight = []) :
    Tracked (s.goTo point) where
  reports := h.reports
  tracked := h.tracked
  emptied := hpoint

theorem Tracked.pop (h : Tracked s) (hinflight : s.inflight = (oldest, size) :: inflight)
    {written : List Text} (hkept : s.written ⊆ written)
    (hfile : ∀ file, oldest.file = some file → file ∈ written) :
    ∀ made ∈ s.spawned, ∀ file, made.2.file = some file →
      file ∈ written ∨ made.2 ∈ inflight.map Prod.fst := by
  intro made hmade file hmadeFile
  rcases h.tracked made hmade file hmadeFile with hwritten | hrunning
  · exact .inl (hkept hwritten)
  · rw [hinflight, map_cons, mem_cons] at hrunning
    rcases hrunning with holdest | hrunning
    · rw [holdest] at hmadeFile
      exact .inl (hfile file hmadeFile)
    · exact .inr hrunning

theorem Tracked.moves (h : Tracked s) (hwrite : write.reports = true)
    (hmoves : Moves lib s write t) : Tracked t := by
  cases hmoves with
  | fails e hpoint => exact h.goTo (by simp)
  | opens hpoint => exact h.goTo (by simp)
  | splits hpoint hgroups => exact h.goTo (by simp)
  | pulls hpoint => exact h.goTo (by simp)
  | ends hpoint => exact h.goTo (by simp)
  | @waits oldest size inflight hpoint hinflight =>
    obtain ⟨hkept, hfile⟩ := Staging.finish_written
      { s with inflight, inflightBytes := s.inflightBytes - size } oldest
    refine ⟨by simpa using h.reports, ?_, ?_⟩
    · simpa using h.pop hinflight hkept hfile
    · intro result hresult
      rcases Staging.finish_point _ _ with hsame | ⟨e, hfailed⟩
      · rw [hsame] at hresult
        rw [show s.point = .returned result from hresult] at hpoint
        exact hpoint.elim
      · rw [hfailed] at hresult
        cases hresult
  | @spawns context group groups batches stream hpoint hroom =>
    refine ⟨?_, ?_, by simp [Staging.spawn]⟩
    · intro made hmade
      rcases mem_append.mp hmade with hmade | hmade
      · exact h.reports made hmade
      · rw [mem_singleton.mp hmade]
        exact hwrite
    · intro made hmade file hfile
      rcases mem_append.mp hmade with hmade | hmade
      · refine (h.tracked made hmade file hfile).imp id fun hrunning => ?_
        simp only [Staging.spawn, map_append, mem_append]
        exact .inl hrunning
      · rw [mem_singleton.mp hmade]
        exact .inr (by simp [Staging.spawn])
  | @collects oldest size inflight hpoint hinflight =>
    obtain ⟨hkept, hfile⟩ := Staging.finish_written { s with inflight } oldest
    refine ⟨by simpa using h.reports, ?_, ?_⟩
    · simpa using h.pop hinflight hkept hfile
    · intro result hresult
      rcases Staging.finish_point _ _ with hsame | ⟨e, hfailed⟩
      · rw [hsame] at hresult
        cases hpoint.symm.trans hresult
      · rw [hfailed] at hresult
        cases hresult
  | succeeds hpoint hinflight => exact h.goTo fun _ _ => hinflight
  | @drains e oldest size inflight hpoint hinflight =>
    obtain ⟨hkept, hfile⟩ := Staging.drain_written { s with inflight } oldest
    refine ⟨by simpa using h.reports, ?_, ?_⟩
    · simpa using h.pop hinflight hkept hfile
    · intro result hresult
      rw [Staging.drain_point, hpoint] at hresult
      cases hresult
  | givesUp hpoint hinflight => exact h.goTo fun _ _ => hinflight

/-- The groups still to be written. -/
def Stager.remaining (lib : Stager Values Data Context) (groups : List (Group Values Data))
    (batches : List Data) (stream : Stream Data) : Except NativeError (List (Group Values Data)) :=
  do
    let split ← batches.mapM lib.groups
    let later ← lib.streamGroups stream
    return groups ++ (split.flatten ++ later)

/-- What is still to be written where nothing has failed. -/
def Stager.pending (lib : Stager Values Data Context) :
    Point Values Data Context → Option (Except NativeError (List (Group Values Data)))
  | .looping groups batches stream => some (lib.remaining groups batches stream)
  | .room _ group groups batches stream => some (lib.remaining (group :: groups) batches stream)
  | .last | .returned (.ok ()) => some (.ok [])
  | .failed _ | .returned (.error _) => none

theorem remaining_cons (group : Group Values Data) (groups : List (Group Values Data))
    (batches : List Data) (stream : Stream Data) :
    lib.remaining (group :: groups) batches stream =
      (lib.remaining groups batches stream).map (group :: ·) := by
  rw [Stager.remaining, Stager.remaining]
  cases batches.mapM lib.groups with
  | error e => rfl
  | ok split =>
    cases lib.streamGroups stream with
    | error e => rfl
    | ok later => rfl

theorem remaining_split {batch : Data} {groups : List (Group Values Data)}
    (hgroups : lib.groups batch = .ok groups) (batches : List Data) (stream : Stream Data) :
    lib.remaining [] (batch :: batches) stream = lib.remaining groups batches stream := by
  rw [Stager.remaining, Stager.remaining, mapM_cons, hgroups]
  cases batches.mapM lib.groups with
  | error e => rfl
  | ok split =>
    cases lib.streamGroups stream with
    | error e => rfl
    | ok later =>
      show Except.ok _ = Except.ok _
      simp

theorem remaining_pull (batches : List Data) (stream : Stream Data) :
    lib.remaining [] [] (.ok batches :: stream) = lib.remaining [] batches stream := by
  rw [Stager.remaining, Stager.remaining, Stager.streamGroups, mapM_nil, pure_bind]
  rw [Result.ok_bind]
  cases batches.mapM lib.groups with
  | error e => rfl
  | ok split =>
    cases lib.streamGroups stream with
    | error e => rfl
    | ok later => rfl

/-- The groups written so far are the first of the stream, each waited for added in turn. -/
structure Ordered (lib : Stager Values Data Context) (adds : List AddBatch)
    (stream : Stream Data) (s : Staging Values Data Context) : Prop where
  groups : ∀ pending, lib.pending s.point = some pending →
    lib.streamGroups stream = pending.map (s.spawned.map Prod.fst ++ ·)
  adds : ∀ pending, lib.pending s.point = some pending → ∃ batches, s.adds = adds ++ batches ∧
    s.spawned.map Prod.snd = batches.map (fun b => .done (.arrow b)) ++ s.inflight.map Prod.fst

variable {adds : List AddBatch} {stream : Stream Data}

theorem Ordered.goTo (h : Ordered lib adds stream s)
    (hpoint : ∀ pending, lib.pending point = some pending → lib.pending s.point = some pending) :
    Ordered lib adds stream (s.goTo point) where
  groups pending hpending := h.groups pending (hpoint pending hpending)
  adds pending hpending := h.adds pending (hpoint pending hpending)

theorem Ordered.finish (h : Ordered lib adds stream s)
    (hinflight : s.inflight = (oldest, size) :: inflight) (inflightBytes : Nat) :
    Ordered lib adds stream ({ s with inflight, inflightBytes }.finish oldest) := by
  obtain ⟨e, -, hfinish⟩ | ⟨batch, paths, hwrite, -, hfinish⟩ :=
    Staging.finish_cases { s with inflight, inflightBytes } oldest
  · rw [hfinish]
    exact ⟨fun pending hpending => (by cases hpending), fun pending hpending => (by cases hpending)⟩
  · rw [hfinish]
    refine ⟨h.groups, fun pending hpending => ?_⟩
    obtain ⟨batches, hadds, hspawned⟩ := h.adds pending hpending
    refine ⟨batches ++ [batch], ?_, ?_⟩
    · show s.adds ++ [batch] = _
      rw [hadds, append_assoc]
    · rw [hspawned, hinflight, hwrite]
      simp

theorem Ordered.moves (h : Ordered lib adds stream s) (hmoves : Moves lib s write t) :
    Ordered lib adds stream t := by
  cases hmoves with
  | fails e hpoint => exact h.goTo fun pending hpending => by cases hpending
  | opens hpoint => exact h.goTo fun pending hpending => by rw [hpoint]; exact hpending
  | splits hpoint hgroups =>
    refine h.goTo fun pending hpending => ?_
    rw [hpoint, Stager.pending, remaining_split hgroups]
    exact hpending
  | pulls hpoint =>
    refine h.goTo fun pending hpending => ?_
    rw [hpoint, Stager.pending, remaining_pull]
    exact hpending
  | ends hpoint => exact h.goTo fun pending hpending => by rw [hpoint]; exact hpending
  | waits hpoint hinflight => exact h.finish hinflight _
  | @spawns context group groups batches rest hpoint hroom =>
    have hpending : lib.pending s.point = some (lib.remaining (group :: groups) batches rest) := by
      rw [hpoint]
      rfl
    constructor
    · intro pending hlater
      rw [h.groups _ hpending, remaining_cons]
      cases hlater
      cases lib.remaining groups batches rest with
      | error e => rfl
      | ok remaining => simp [Staging.spawn, Except.map]
    · intro pending _
      obtain ⟨done, hadds, hspawned⟩ := h.adds _ hpending
      exact ⟨done, hadds, by simp [Staging.spawn, hspawned]⟩
  | collects hpoint hinflight => exact h.finish hinflight _
  | succeeds hpoint hinflight => exact h.goTo fun pending hpending => by rw [hpoint]; exact hpending
  | @drains e oldest size inflight hpoint hinflight =>
    have hnone : ∀ pending, lib.pending (Staging.drain { s with inflight } oldest).point ≠
        some pending := by
      intro pending
      rw [Staging.drain_point, hpoint]
      simp [Stager.pending]
    exact ⟨fun pending hpending => absurd hpending (hnone pending),
      fun pending hpending => absurd hpending (hnone pending)⟩
  | givesUp hpoint hinflight => exact h.goTo fun pending hpending => by cases hpending

/-- The most steps a batch takes before its groups' own. -/
def Stager.batchSteps (lib : Stager Values Data Context) (batch : Data) : Nat :=
  1 + 3 * ((lib.groups batch).toOption.map List.length).getD 0

def Stager.streamSteps (lib : Stager Values Data Context) (stream : Stream Data) : Nat :=
  (stream.map fun prepared =>
    1 + ((prepared.toOption.getD []).map lib.batchSteps).sum).sum

def Stager.pointSteps (lib : Stager Values Data Context) : Point Values Data Context → Nat
  | .looping groups batches stream =>
    3 + 3 * groups.length + (batches.map lib.batchSteps).sum + lib.streamSteps stream
  | .room _ _ groups batches stream =>
    5 + 3 * groups.length + (batches.map lib.batchSteps).sum + lib.streamSteps stream
  | .last => 2
  | .failed _ => 1
  | .returned _ => 0

/-- No call takes more steps than this. -/
def Stager.stepsLeft (lib : Stager Values Data Context) (s : Staging Values Data Context) : Nat :=
  lib.pointSteps s.point + s.inflight.length

theorem pointSteps_of_looping (h : point.Looping) : 3 ≤ lib.pointSteps point := by
  cases point with
  | looping groups batches stream =>
    rw [Stager.pointSteps]
    omega
  | room context group groups batches stream =>
    rw [Stager.pointSteps]
    omega
  | last => exact h.elim
  | failed e => exact h.elim
  | returned result => exact h.elim

theorem stepsLeft_finish (hpoint : 1 ≤ lib.pointSteps s.point) (oldest : Write) :
    lib.stepsLeft (s.finish oldest) ≤ lib.stepsLeft s := by
  rw [Stager.stepsLeft, Stager.stepsLeft, Staging.finish_inflight]
  rcases s.finish_point oldest with hsame | ⟨e, hfailed⟩
  · rw [hsame]
  · rw [hfailed, Stager.pointSteps]
    omega

theorem moves_lowers (h : Moves lib s write t) : lib.stepsLeft t < lib.stepsLeft s := by
  cases h with
  | fails e hpoint =>
    have hleft : 3 ≤ lib.pointSteps s.point := pointSteps_of_looping hpoint
    show 1 + s.inflight.length < lib.pointSteps s.point + s.inflight.length
    omega
  | opens hpoint =>
    simp only [Stager.stepsLeft, Staging.goTo, hpoint, Stager.pointSteps, length_cons]
    omega
  | splits hpoint hgroups =>
    simp only [Stager.stepsLeft, Staging.goTo, hpoint, Stager.pointSteps, map_cons,
      sum_cons, Stager.batchSteps, hgroups, Except.toOption, Option.map_some,
      Option.getD_some, length_nil]
    omega
  | pulls hpoint =>
    simp only [Stager.stepsLeft, Staging.goTo, hpoint, Stager.pointSteps, Stager.streamSteps,
      map_cons, sum_cons, Except.toOption, Option.getD_some, map_nil,
      sum_nil]
    omega
  | ends hpoint =>
    simp only [Stager.stepsLeft, Staging.goTo, hpoint, Stager.pointSteps]
    omega
  | @waits oldest size inflight hpoint hinflight =>
    have hleft : 1 ≤ lib.pointSteps s.point := le_trans (by decide) (pointSteps_of_looping hpoint)
    refine lt_of_le_of_lt (stepsLeft_finish ?_ oldest) ?_
    · exact hleft
    · simp [Stager.stepsLeft, hinflight]
  | spawns hpoint hroom =>
    simp only [Stager.stepsLeft, Staging.spawn, hpoint, Stager.pointSteps, length_append,
      length_singleton]
    omega
  | @collects oldest size inflight hpoint hinflight =>
    have hleft : 1 ≤ lib.pointSteps s.point := by simp [hpoint, Stager.pointSteps]
    refine lt_of_le_of_lt (stepsLeft_finish ?_ oldest) ?_
    · exact hleft
    · simp [Stager.stepsLeft, hinflight]
  | succeeds hpoint hinflight => simp [Stager.stepsLeft, Staging.goTo, hpoint, Stager.pointSteps]
  | drains hpoint hinflight => simp [Stager.stepsLeft, hinflight]
  | givesUp hpoint hinflight => simp [Stager.stepsLeft, Staging.goTo, hpoint, Stager.pointSteps]

theorem returned_of_step_none (h : lib.step s write = none) :
    ∃ result, s.point = .returned result := by
  unfold Stager.step at h
  split at h
  · split at h <;> cases h
  · split at h <;> cases h
  · cases h
  · cases h
  · cases h
  · split at h
    · cases h
    · split_ifs at h
  · split at h <;> cases h
  · split at h <;> cases h
  · rename_i result hpoint
    exact ⟨result, hpoint⟩

/-- A call of `stage_stream` returns, whatever its writes return. -/
theorem staging_returns (start : Staging Values Data Context) (writes : List Write)
    (henough : lib.stepsLeft start ≤ writes.length)
    (hreports : ∀ write ∈ writes, write.reports = true) :
    ∃ n ≤ lib.stepsLeft start, ∃ s result,
      replay lib.step (fun _ write => write.reports = true) start (writes.take n) = some s ∧
        s.point = .returned result := by
  induction writes generalizing start with
  | nil =>
    have hnone : lib.step start (.failed (.other [])) = none := by
      rw [Option.eq_none_iff_forall_ne_some]
      intro s hstep
      have hlower := moves_lowers (moves_of_step hstep)
      exact absurd henough (Nat.not_le.mpr (Nat.zero_lt_of_lt hlower))
    obtain ⟨result, hresult⟩ := returned_of_step_none hnone
    exact ⟨0, Nat.zero_le _, start, result, rfl, hresult⟩
  | cons write writes ih =>
    cases hstep : lib.step start write with
    | none =>
      obtain ⟨result, hresult⟩ := returned_of_step_none hstep
      exact ⟨0, Nat.zero_le _, start, result, rfl, hresult⟩
    | some s =>
      have hlower := moves_lowers (moves_of_step hstep)
      rw [length_cons] at henough
      obtain ⟨n, hn, s', result, hreplay, hresult⟩ := ih s (by omega)
        fun w hw => hreports w (mem_cons_of_mem _ hw)
      refine ⟨n + 1, by omega, s', result, ?_, hresult⟩
      rw [take_succ_cons, replay, if_pos (hreports write mem_cons_self), hstep]
      exact hreplay

variable {start : Staging Values Data Context}

theorem Runs.bounded (h : lib.Runs start s) (hstart : Bounded start) : Bounded s :=
  h.invariant hstart fun _ _ _ hs _ hstep => hs.moves (moves_of_step hstep)

theorem Runs.tracked (h : lib.Runs start s) (hstart : Tracked start) : Tracked s :=
  h.invariant hstart fun _ _ _ hs hwrite hstep => hs.moves hwrite (moves_of_step hstep)

theorem Runs.ordered (h : lib.Runs start s) (hstart : Ordered lib adds stream start) :
    Ordered lib adds stream s :=
  h.invariant hstart fun _ _ _ hs _ hstep => hs.moves (moves_of_step hstep)

theorem start_bounded (adds : List AddBatch) (written : List Text) (stream : Stream Data) :
    Bounded (lib.start adds written stream) :=
  ⟨fun _ => rfl, Nat.zero_le _, .inr (Nat.zero_le _)⟩

theorem start_tracked (adds : List AddBatch) (written : List Text) (stream : Stream Data) :
    Tracked (lib.start adds written stream) :=
  ⟨fun _ hmade => absurd hmade not_mem_nil, fun _ hmade => absurd hmade not_mem_nil,
    fun _ _ => rfl⟩

theorem start_ordered (adds : List AddBatch) (written : List Text) (stream : Stream Data) :
    Ordered lib adds stream (lib.start adds written stream) := by
  refine ⟨fun pending hpending => ?_, fun _ _ => ⟨[], (append_nil _).symm, rfl⟩⟩
  cases hstate : lib.writeState with
  | error e =>
    have hpoint : lib.pending (lib.start adds written stream).point = none := by
      simp [Stager.start, hstate, Stager.pending]
    rw [hpoint] at hpending
    cases hpending
  | ok _ =>
    have hpoint : lib.pending (lib.start adds written stream).point =
        some (lib.remaining [] [] stream) := by
      simp [Stager.start, hstate, Stager.pending]
    rw [hpoint] at hpending
    cases hpending
    rw [Stager.remaining, mapM_nil, pure_bind]
    cases lib.streamGroups stream with
    | error e => rfl
    | ok groups => rfl

theorem added_of_spawned {spawned : List (Group Values Data × Write)} {added : List AddBatch}
    (hreports : ∀ made ∈ spawned, made.2.reports = true)
    (h : spawned.map Prod.snd = added.map fun batch => .done (.arrow batch)) :
    List.Forall₂ (fun made batch => made.2 = .done (.arrow batch) ∧
      ∃ file, batch.path = .texts [some file]) spawned added := by
  induction spawned generalizing added with
  | nil =>
    rw [map_nil] at h
    rw [map_eq_nil_iff.mp h.symm]
    exact .nil
  | cons made spawned ih =>
    cases added with
    | nil => cases h
    | cons batch added =>
      rw [map_cons, map_cons, List.cons.injEq] at h
      obtain ⟨hmade, hlater⟩ := h
      have hfirst := hreports made mem_cons_self
      rw [hmade] at hfirst
      obtain ⟨file, hfile⟩ := file_of_reports hfirst
      have hpath : batch.path = .texts [some file] := by rw [EngineData.arrow.inj hfile]
      exact .cons ⟨hmade, file, hpath⟩
        (ih (fun other hother => hreports other (mem_cons_of_mem made hother)) hlater)

/-- Throughout a call of `stage_stream` at most sixteen writes run, holding
at most the byte budget or being one, and the byte counter is their sum while
the loop over the stream runs. A call that succeeds adds one file for each
group in the stream's order, and a call that has returned has recorded every
file made. -/
theorem stream_accounted (lib : Stager Values Data Context) (adds : List AddBatch)
    (written : List Text) (stream : Stream Data)
    (h : lib.Runs (lib.start adds written stream) s) :
    s.inflight.length ≤ 16 ∧ (s.bytes ≤ 256 * 2 ^ 20 ∨ s.inflight.length ≤ 1) ∧
      (s.point.Looping → s.inflightBytes = s.bytes ∧
        ∀ oldest size later, s.inflight = (oldest, size) :: later → size ≤ s.inflightBytes) ∧
      (s.point = .returned (.ok ()) → ∃ added, s.adds = adds ++ added ∧
        lib.streamGroups stream = .ok (s.spawned.map Prod.fst) ∧
        List.Forall₂ (fun made batch => made.2 = .done (.arrow batch) ∧
          ∃ file, batch.path = .texts [some file]) s.spawned added) ∧
      (∀ result, s.point = .returned result → ∀ made ∈ s.spawned, ∀ metadata,
        made.2 = .done metadata →
          ∃ file, metadata = .arrow ⟨.texts [some file]⟩ ∧ file ∈ s.written) := by
  have hbounded : Bounded s := Runs.bounded h (start_bounded adds written stream)
  have htracked : Tracked s := Runs.tracked h (start_tracked adds written stream)
  have hordered : Ordered lib adds stream s := Runs.ordered h (start_ordered adds written stream)
  refine ⟨hbounded.few, hbounded.small, fun hrun => ⟨hbounded.counter hrun, ?_⟩, ?_, ?_⟩
  · intro oldest size later hinflight
    exact (hbounded.size_le hrun hinflight).1
  · intro hreturned
    have hpending : lib.pending s.point = some (.ok []) := by rw [hreturned]; rfl
    obtain ⟨added, hadds, hspawned⟩ := hordered.adds _ hpending
    have hgroups := hordered.groups _ hpending
    rw [htracked.emptied _ hreturned, map_nil, append_nil] at hspawned
    exact ⟨added, hadds, by rw [hgroups]; simp [Except.map],
      added_of_spawned htracked.reports hspawned⟩
  · intro result hreturned made hmade metadata hdone
    obtain ⟨file, hfile⟩ := file_of_reports (hdone ▸ htracked.reports made hmade)
    refine ⟨file, hfile, ?_⟩
    have hmadeFile : made.2.file = some file := by rw [hdone, hfile]; rfl
    rcases htracked.tracked made hmade file hmadeFile with hwritten | hrunning
    · exact hwritten
    · rw [htracked.emptied result hreturned] at hrunning
      exact absurd hrunning not_mem_nil

/-- A table without partition columns; a batch is its own size. -/
def unpartitioned : Stager Unit Nat Unit where
  partitionColumns := []
  splitByPartition := fun _ => .ok []
  writeState := .ok ()
  unpartitionedWriteContext := .ok ()
  partitionedWriteContext := fun _ => .ok ()
  memorySize := id

def made (file : Text) : Write := .done (.arrow ⟨.texts [some file]⟩)

/-- Three batches, the second of whose writes fails. -/
def threeWrites : List Write :=
  let failed := Write.failed (.other "disk full".toList)
  [failed, failed, failed, made "a".toList, failed, failed, failed, failed, failed,
    made "c".toList, failed, failed, failed, failed, failed]

def afterThree : Staging Unit Nat Unit where
  point := .returned (.error (.kernel (.other "disk full".toList)))
  adds := [⟨.texts [some "a".toList]⟩]
  written := ["a".toList, "c".toList]
  inflight := []
  inflightBytes := 6
  spawned := [((none, 1), made "a".toList), ((none, 2), .failed (.other "disk full".toList)),
    ((none, 3), made "c".toList)]

theorem stream_accounted_three : afterThree.inflight.length ≤ 16 ∧
    ∀ made ∈ afterThree.spawned, ∀ metadata, made.2 = .done metadata →
      ∃ file, metadata = .arrow ⟨.texts [some file]⟩ ∧ file ∈ afterThree.written := by
  have hreplay : replay unpartitioned.step (fun _ write => write.reports = true)
      (unpartitioned.start [] [] [.ok [1, 2, 3]]) threeWrites = some afterThree := rfl
  obtain ⟨hfew, -, -, -, hrecorded⟩ :=
    stream_accounted unpartitioned [] [] [.ok [1, 2, 3]] (Run.of_replay hreplay)
  exact ⟨hfew, hrecorded _ rfl⟩

theorem staging_returns_three : ∃ n ≤ 60, ∃ s result,
    replay unpartitioned.step (fun _ write => write.reports = true)
        (unpartitioned.start [] [] [.ok [1, 2, 3]])
        ((List.replicate 60 (made "a".toList)).take n) = some s ∧
      s.point = .returned result := by
  obtain ⟨n, hn, hreturns⟩ := @staging_returns _ _ _ unpartitioned
    (unpartitioned.start [] [] [.ok [1, 2, 3]]) (List.replicate 60 (made "a".toList))
    (by decide) (by decide)
  exact ⟨n, hn.trans (by decide), hreturns⟩

/-- The loop that waits for the last writes leaves the byte counter as it was. -/
theorem counter_left_behind : ¬ ∀ (lib : Stager Unit Nat Unit) (adds : List AddBatch)
    (written : List Text) (stream : Stream Nat) (s : Staging Unit Nat Unit),
    lib.Runs (lib.start adds written stream) s → s.inflightBytes = s.bytes := by
  intro hcounter
  have hreplay : replay unpartitioned.step (fun _ write => write.reports = true)
      (unpartitioned.start [] [] [.ok [1, 2, 3]]) threeWrites = some afterThree := rfl
  have hsame := hcounter unpartitioned [] [] [.ok [1, 2, 3]] afterThree (Run.of_replay hreplay)
  exact absurd hsame (by decide)

end

end DeltaSwamp.Commit
