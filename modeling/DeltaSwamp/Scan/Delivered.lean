import DeltaSwamp.Scan.Restricted

/-!
# What a restricted scan delivers

Whenever workers finish, what the consumer has been handed and what is still to
come make the same items in the same order; few files are ever in flight.
-/

namespace DeltaSwamp.Scan

open List

section
variable {V L ε α : Type}

/-- A stream up to its first error. -/
def untilError : List (Except ε α) → List (Except ε α)
  | [] => []
  | .error e :: _ => [.error e]
  | .ok a :: items => .ok a :: untilError items

theorem untilError_ok_append (l : List α) (items : List (Except ε α)) :
    untilError (l.map .ok ++ items) = l.map .ok ++ untilError items := by
  induction l with
  | nil => rfl
  | cons a l ih => simp only [map_cons, cons_append, untilError, ih]

variable (config : Config V L ε)

/-- What a file comes to, read ahead or batch by batch. -/
def Config.items (file : ScanFile) : List (Except ε (List (Row L))) :=
  if config.prefetch then fileLoaded config.engine config.options file
  else fileStream config.engine config.options file

theorem items_delivers (file : ScanFile) :
    DeliversFile config.engine config.options file (config.items file) := by
  unfold Config.items
  split_ifs
  · exact fileLoaded_delivers
  · exact fileStream_delivers

/-- The files a scan plans, in the order it reads them, or the errors of its metadata. -/
def Config.planned (order : Option (List String)) (metadata : List (Except ε (List ScanFile))) :
    List (Except ε ScanFile) :=
  match order with
  | some order =>
    match found config [] metadata with
    | .error e => [.error e]
    | .ok files => (removeEach files order).map .ok
  | none => metadata.flatMap fun
      | .error e => [.error e]
      | .ok batch => (batch.filter config.wanted).map .ok

def Config.planItems : Except ε ScanFile → List (Except ε (List (Row L)))
  | .error e => [.error e]
  | .ok file => config.items file

variable {config} {s s' : State V L ε}

/-- What the file being read still comes to. -/
def State.currentItems (config : Config V L ε) (s : State V L ε) :
    List (Except ε (List (Row L))) :=
  s.current.elim [] fun opened =>
    streamBatches config.engine config.options opened.file opened.selection opened.batches

/-- The files already planned and not yet opened. -/
def State.queue (s : State V L ε) : List ScanFile := s.inflight.map Task.file ++ s.pending

/-- What is still to be handed on. -/
def State.rest (config : Config V L ε) (s : State V L ε) : List (Except ε (List (Row L))) :=
  if s.finished then []
  else untilError (s.ready.map .ok ++ s.currentItems config ++ s.queue.flatMap config.items ++
    (config.planned s.order s.metadata).flatMap config.planItems)

/-- Files are in flight only in an ordered scan; the consumer waits only for one in flight. -/
structure State.Sound (config : Config V L ε) (s : State V L ε) : Prop where
  ahead : s.inflight ≠ [] → config.prefetch = true
  waits : s.waiting = true → s.inflight ≠ []
  few : s.inflight.length ≤ s.limit

theorem start_sound (metadata : List (Except ε (List ScanFile))) :
    (config.start metadata).Sound config where
  ahead h := absurd rfl h
  waits h := Bool.noConfusion h
  few := Nat.zero_le _

theorem limit_le (s : State V L ε) : 2 ≤ s.limit ∧ s.limit ≤ prefetchFiles := by
  unfold State.limit
  split_ifs <;> decide

theorem fill_queue (limit : Nat) (ratio : ℚ) (pending : List ScanFile) (inflight : List Task)
    (bytes : Nat) :
    (fill limit ratio pending inflight bytes).2.1.map Task.file ++
        (fill limit ratio pending inflight bytes).1 =
      inflight.map Task.file ++ pending := by
  induction pending generalizing inflight bytes with
  | nil => rfl
  | cons file pending ih =>
    unfold fill
    split_ifs
    · rw [ih, map_append, append_assoc]
      rfl
    · rfl

variable {inflight : List Task}

theorem fill_length {limit : Nat} (ratio : ℚ) (pending : List ScanFile) (bytes : Nat)
    (h : inflight.length ≤ limit) :
    (fill limit ratio pending inflight bytes).2.1.length ≤ limit := by
  induction pending generalizing inflight bytes with
  | nil => exact h
  | cons file pending ih =>
    unfold fill
    split_ifs with hroom
    · refine ih _ ?_
      rw [length_append, length_singleton]
      omega
    · exact h

theorem fill_keeps (limit : Nat) (ratio : ℚ) (pending : List ScanFile) (bytes : Nat)
    (h : inflight ≠ []) : (fill limit ratio pending inflight bytes).2.1 ≠ [] := by
  induction pending generalizing inflight bytes with
  | nil => exact h
  | cons file pending ih =>
    unfold fill
    split_ifs
    · exact ih _ (by simp)
    · exact h

theorem fill_nonempty {limit : Nat} (ratio : ℚ) {pending : List ScanFile} (inflight : List Task)
    (bytes : Nat) (hlimit : 0 < limit) (hpending : pending ≠ []) :
    (fill limit ratio pending inflight bytes).2.1 ≠ [] := by
  by_cases hinflight : inflight = []
  · cases pending with
    | nil => exact absurd rfl hpending
    | cons file pending =>
      unfold fill
      rw [if_pos ⟨by rw [hinflight]; exact hlimit, .inl hinflight⟩]
      exact fill_keeps _ _ _ _ (by simp)
  · exact fill_keeps _ _ _ _ hinflight

theorem fillPrefetch_queue (s : State V L ε) : s.fillPrefetch.queue = s.queue := fill_queue ..

/-- All that a turn can do. -/
theorem turn_cases (h : turn config s = some s') :
    s.finished = false ∧
    ((∃ batch ready, s.ready = batch :: ready ∧ s' = { s with ready := ready }.deliver batch) ∨
    (s.ready = [] ∧ ∃ opened, s.current = some opened ∧ s' = nextOpen config s opened) ∨
    (s.ready = [] ∧ s.current = none ∧
      ((s.waiting = true ∧ ∃ task inflight, s.inflight = task :: inflight ∧ task.done = true ∧
          s' = takePrefetched config s task inflight) ∨
      (s.waiting = false ∧ config.prefetch = true ∧ s.fillPrefetch.inflight ≠ [] ∧
          s' = { s.fillPrefetch with waiting := true }) ∨
      (s.waiting = false ∧ (config.prefetch = true → s.fillPrefetch.inflight = []) ∧
        ((s.pending = [] ∧ s' = planNext config s) ∨
        ∃ file pending, s.pending = file :: pending ∧
          ((∃ e, openFile config.engine file = .error e ∧
              s' = { s with pending := pending }.fail e) ∨
            ∃ opened, openFile config.engine file = .ok opened ∧
              s' = { s with
                pending := pending
                current := some opened })))))) := by
  unfold turn at h
  cases hfinished : s.finished with
  | true =>
    rw [hfinished] at h
    cases h
  | false =>
    refine ⟨rfl, ?_⟩
    rw [hfinished, if_neg Bool.false_ne_true] at h
    cases hready : s.ready with
    | cons batch ready =>
      rw [hready] at h
      exact .inl ⟨batch, ready, rfl, (Option.some.inj h).symm⟩
    | nil =>
      right
      cases hcurrent : s.current with
      | some opened =>
        rw [hready, hcurrent] at h
        exact .inl ⟨rfl, opened, rfl, (Option.some.inj h).symm⟩
      | none =>
        right
        refine ⟨rfl, rfl, ?_⟩
        rw [hready, hcurrent] at h
        dsimp only at h
        split_ifs at h with hwaiting hahead
        · left
          cases hinflight : s.inflight with
          | nil =>
            rw [hinflight] at h
            cases h
          | cons task inflight =>
            rw [hinflight] at h
            dsimp only at h
            split_ifs at h with hdone
            exact ⟨hwaiting, task, inflight, rfl, hdone, (Option.some.inj h).symm⟩
        · right
          left
          rw [Bool.and_eq_true, Bool.not_eq_true', isEmpty_eq_false_iff] at hahead
          exact ⟨Bool.eq_false_of_not_eq_true hwaiting, hahead.1, hahead.2,
            (Option.some.inj h).symm⟩
        · right
          right
          refine ⟨Bool.eq_false_of_not_eq_true hwaiting, fun hprefetch => ?_, ?_⟩
          · by_contra hne
            apply hahead
            rw [Bool.and_eq_true, Bool.not_eq_true', isEmpty_eq_false_iff]
            exact ⟨hprefetch, hne⟩
          · cases hpending : s.pending with
            | nil =>
              rw [hpending] at h
              exact .inl ⟨rfl, (Option.some.inj h).symm⟩
            | cons file pending =>
              rw [hpending] at h
              dsimp only at h
              right
              refine ⟨file, pending, rfl, ?_⟩
              cases hopen : openFile config.engine file with
              | error e =>
                rw [hopen] at h
                exact .inl ⟨e, rfl, (Option.some.inj h).symm⟩
              | ok opened =>
                rw [hopen] at h
                exact .inr ⟨opened, rfl, (Option.some.inj h).symm⟩

theorem rest_open (h : s.finished = false) :
    s.rest config = untilError (s.ready.map .ok ++ s.currentItems config ++
      s.queue.flatMap config.items ++
      (config.planned s.order s.metadata).flatMap config.planItems) := by
  unfold State.rest
  rw [h, if_neg Bool.false_ne_true]

theorem fail_out (s : State V L ε) (e : ε) :
    (s.fail e).out ++ (s.fail e).rest config = s.out ++ [.error e] := by
  unfold State.rest
  rw [if_pos (show (s.fail e).finished = true from rfl), append_nil]
  rfl

theorem nextOpen_conserves {opened : OpenFile V ε} (hfinished : s.finished = false)
    (hready : s.ready = []) (hcurrent : s.current = some opened) :
    (nextOpen config s opened).out ++ (nextOpen config s opened).rest config =
      s.out ++ s.rest config := by
  have hitems : s.currentItems config = streamBatches config.engine config.options opened.file
      opened.selection opened.batches := by
    unfold State.currentItems
    rw [hcurrent]
    rfl
  rw [rest_open hfinished, hready, hitems, map_nil, nil_append]
  unfold nextOpen
  cases hbatches : opened.batches with
  | nil =>
    dsimp only
    rw [rest_open (by exact hfinished)]
    simp only [hready, State.currentItems, map_nil, streamBatches]
    rfl
  | cons batch batches =>
    cases batch with
    | error e =>
      dsimp only
      rw [fail_out, streamBatches]
      rfl
    | ok physical =>
      dsimp only
      rw [streamBatches]
      cases hbatch : finishBatch config.engine config.options opened.file opened.selection
          physical with
      | error e =>
        dsimp only
        rw [fail_out]
        rfl
      | ok finished =>
        obtain ⟨rows, selection⟩ := finished
        dsimp only [State.deliver]
        rw [rest_open (by exact hfinished)]
        simp only [hready, State.currentItems, map_nil, nil_append, Option.elim_some,
          cons_append, untilError, append_assoc]
        rfl

theorem takePrefetched_conserves {task : Task} (hprefetch : config.prefetch = true)
    (hfinished : s.finished = false) (hready : s.ready = []) (hcurrent : s.current = none)
    (hinflight : s.inflight = task :: inflight) :
    (takePrefetched config s task inflight).out ++
        (takePrefetched config s task inflight).rest config = s.out ++ s.rest config := by
  have hcurrentItems : s.currentItems config = [] := by
    unfold State.currentItems
    rw [hcurrent]
    rfl
  have hqueue : s.queue = task.file :: (inflight.map Task.file ++ s.pending) := by
    unfold State.queue
    rw [hinflight]
    rfl
  have hitems : config.items task.file = fileLoaded config.engine config.options task.file :=
    if_pos hprefetch
  rw [rest_open hfinished, hready, hcurrentItems, hqueue, flatMap_cons, hitems, fileLoaded]
  unfold takePrefetched
  cases hload : loadFile config.engine config.options task.file with
  | error e =>
    dsimp only
    rw [fail_out]
    rfl
  | ok batches =>
    dsimp only
    rw [rest_open (by exact hfinished)]
    simp only [hready, hcurrent, State.currentItems, State.queue, Option.elim_none, map_nil,
      nil_append, append_nil, append_assoc]

theorem planNext_conserves (hfinished : s.finished = false) (hready : s.ready = [])
    (hcurrent : s.current = none) (hqueue : s.queue = []) :
    (planNext config s).out ++ (planNext config s).rest config = s.out ++ s.rest config := by
  have hcurrentItems : s.currentItems config = [] := by
    unfold State.currentItems
    rw [hcurrent]
    rfl
  obtain ⟨hinflight, hpending⟩ := append_eq_nil_iff.mp hqueue
  rw [rest_open hfinished, hready, hcurrentItems, hqueue]
  unfold planNext
  cases horder : s.order with
  | some order =>
    dsimp only [Config.planned]
    cases hfound : found config [] s.metadata with
    | error e =>
      dsimp only
      rw [fail_out]
      rfl
    | ok files =>
      dsimp only
      rw [rest_open (by exact hfinished)]
      simp only [hready, hcurrent, State.currentItems, State.queue, Option.elim_none,
        map_nil, nil_append, append_nil, hinflight, hpending, Config.planned,
        flatMap_nil, flatMap_map]
      rfl
  | none =>
    dsimp only [Config.planned]
    cases hmetadata : s.metadata with
    | nil =>
      dsimp only
      unfold State.rest
      rw [if_pos rfl]
      rfl
    | cons batch metadata =>
      cases batch with
      | error e =>
        dsimp only
        rw [fail_out]
        rfl
      | ok files =>
        dsimp only
        rw [rest_open (by exact hfinished)]
        simp only [hready, hcurrent, State.currentItems, State.queue,
          Option.elim_none, map_nil, nil_append, hinflight, hpending,
          Config.planned, flatMap_nil, flatMap_cons, flatMap_append,
          flatMap_map]
        rfl

/-- What has been handed on and what is still to be come to the same before and after a round. -/
theorem turn_conserves (hs : s.Sound config) (h : turn config s = some s') :
    s'.out ++ s'.rest config = s.out ++ s.rest config := by
  obtain ⟨hfinished, hcases⟩ := turn_cases h
  rcases hcases with ⟨batch, ready, hready, rfl⟩ | ⟨hready, opened, hcurrent, rfl⟩ |
    ⟨hready, hcurrent, hcases⟩
  · rw [rest_open hfinished, rest_open (by exact hfinished), hready]
    simp only [State.deliver, map_cons, cons_append, untilError, append_assoc]
    rfl
  · exact nextOpen_conserves hfinished hready hcurrent
  · rcases hcases with ⟨-, task, inflight, hinflight, -, rfl⟩ | ⟨-, -, -, rfl⟩ |
      ⟨hwaiting, hnone, hcases⟩
    · have hne : s.inflight ≠ [] := by
        rw [hinflight]
        exact cons_ne_nil _ _
      exact takePrefetched_conserves (hs.ahead hne) hfinished hready hcurrent hinflight
    · rw [rest_open hfinished, rest_open (by exact hfinished)]
      show s.out ++ untilError (s.ready.map .ok ++ s.currentItems config ++
        s.fillPrefetch.queue.flatMap config.items ++ _) = _
      rw [fillPrefetch_queue]
      rfl
    · have hempty : s.inflight = [] := by
        by_contra hne
        exact fill_keeps _ _ _ _ hne (hnone (hs.ahead hne))
      rcases hcases with ⟨hpending, rfl⟩ | ⟨file, pending, hpending, hopen⟩
      · refine planNext_conserves hfinished hready hcurrent ?_
        unfold State.queue
        rw [hempty, hpending]
        rfl
      · have hprefetch : config.prefetch = false := by
          by_contra hprefetch
          rw [Bool.not_eq_false] at hprefetch
          refine fill_nonempty s.decodedRatio s.inflight s.inflightBytes ?_ ?_ (hnone hprefetch)
          · have hlimit := (limit_le s).1
            omega
          · rw [hpending]
            exact cons_ne_nil _ _
        have hcurrentItems : s.currentItems config = [] := by
          unfold State.currentItems
          rw [hcurrent]
          rfl
        have hqueue : s.queue = file :: pending := by
          unfold State.queue
          rw [hempty, hpending]
          rfl
        have hitems : config.items file = fileStream config.engine config.options file := by
          unfold Config.items
          rw [hprefetch, if_neg Bool.false_ne_true]
        rw [rest_open hfinished, hready, hcurrentItems, hqueue, flatMap_cons, hitems,
          fileStream]
        rcases hopen with ⟨e, hopen, rfl⟩ | ⟨opened, hopen, rfl⟩
        · rw [fail_out, hopen]
          rfl
        · obtain ⟨_, -, -, hfile, -⟩ := openFile_ok hopen
          rw [rest_open (by exact hfinished), hopen]
          simp only [hready, State.currentItems, State.queue, Option.elim_some, map_nil,
            nil_append, hempty, append_assoc, hfile]

theorem done_eq {k : Nat} (h : step config s (.done k) = some s') :
    ∃ task, s.inflight[k]? = some task ∧ task.done = false ∧
      s' = { s with inflight := s.inflight.set k { task with done := true } } := by
  unfold step at h
  dsimp only at h
  cases htask : s.inflight[k]? with
  | none =>
    rw [htask] at h
    cases h
  | some task =>
    rw [htask] at h
    dsimp only at h
    split_ifs at h with hdone
    exact ⟨task, rfl, Bool.eq_false_of_not_eq_true hdone, (Option.some.inj h).symm⟩

theorem map_set_self {β γ : Type} (f : β → γ) (l : List β) {k : Nat} {a b : β}
    (ha : l[k]? = some a) (hb : f b = f a) : (l.set k b).map f = l.map f := by
  rw [map_set, hb]
  refine ext_getElem? fun i => ?_
  rw [List.getElem?_set, List.getElem?_map]
  by_cases hi : k = i
  · subst hi
    have hlt := (List.getElem?_eq_some_iff.mp ha).1
    rw [if_pos rfl, if_pos (by rwa [length_map]), ha]
    rfl
  · rw [if_neg hi]

theorem step_conserves {e : Event} (hs : s.Sound config) (h : step config s e = some s') :
    s'.out ++ s'.rest config = s.out ++ s.rest config := by
  cases e with
  | turn => exact turn_conserves hs h
  | done k =>
    obtain ⟨task, htask, -, rfl⟩ := done_eq h
    have hqueue : ({ s with inflight := s.inflight.set k { task with done := true } } :
        State V L ε).queue = s.queue := by
      unfold State.queue
      dsimp only
      rw [map_set_self Task.file s.inflight htask (b := { task with done := true }) rfl]
    unfold State.rest
    rw [hqueue]
    rfl

theorem sound_of_eq (hs : s.Sound config) (hinflight : s'.inflight = s.inflight)
    (hwaiting : s'.waiting = s.waiting) (hlearned : s'.learned = s.learned) :
    s'.Sound config where
  ahead h := hs.ahead (hinflight ▸ h)
  waits h := hinflight ▸ hs.waits (hwaiting ▸ h)
  few := by
    have hfew := hs.few
    unfold State.limit at hfew ⊢
    rwa [hinflight, hlearned]

/-- Every step keeps the invariant. -/
theorem step_sound {e : Event} (hs : s.Sound config) (h : step config s e = some s') :
    s'.Sound config := by
  cases e with
  | done k =>
    obtain ⟨task, htask, -, rfl⟩ := done_eq h
    have hne : s.inflight ≠ [] := by
      intro hempty
      rw [hempty] at htask
      cases htask
    refine ⟨fun _ => hs.ahead hne, fun _ hempty => hne ?_, ?_⟩
    · exact length_eq_zero_iff.mp ((length_set ..).symm.trans (congrArg List.length hempty))
    · simp only [length_set]
      exact hs.few
  | turn =>
    obtain ⟨-, hcases⟩ := turn_cases h
    rcases hcases with ⟨batch, ready, hready, rfl⟩ | ⟨hready, opened, hcurrent, rfl⟩ |
      ⟨hready, hcurrent, hcases⟩
    · exact sound_of_eq hs rfl rfl rfl
    · unfold nextOpen
      split
      · exact sound_of_eq hs rfl rfl rfl
      · exact sound_of_eq hs rfl rfl rfl
      · split
        · exact sound_of_eq hs rfl rfl rfl
        · exact sound_of_eq hs rfl rfl rfl
    · rcases hcases with ⟨-, task, inflight, hinflight, -, rfl⟩ | ⟨-, hprefetch, hne, rfl⟩ |
        ⟨-, -, hcases⟩
      · have hprefetch : config.prefetch = true := by
          apply hs.ahead
          rw [hinflight]
          exact cons_ne_nil _ _
        have hfew := hs.few
        rw [hinflight, length_cons] at hfew
        unfold takePrefetched
        cases loadFile config.engine config.options task.file with
        | error e =>
          refine ⟨fun _ => hprefetch, fun hwaiting => Bool.noConfusion hwaiting, ?_⟩
          exact Nat.le_of_succ_le hfew
        | ok batches =>
          refine ⟨fun _ => hprefetch, fun hwaiting => Bool.noConfusion hwaiting, ?_⟩
          have hlimit := (limit_le s).2
          simp only [State.limit, if_true]
          omega
      · exact ⟨fun _ => hprefetch, fun _ => hne, fill_length _ _ _ hs.few⟩
      · rcases hcases with ⟨-, rfl⟩ | ⟨file, pending, -, ⟨e, -, rfl⟩ | ⟨opened, -, rfl⟩⟩
        · unfold planNext
          split
          · split
            · exact sound_of_eq hs rfl rfl rfl
            · exact sound_of_eq hs rfl rfl rfl
          · split
            · exact sound_of_eq hs rfl rfl rfl
            · exact sound_of_eq hs rfl rfl rfl
            · exact sound_of_eq hs rfl rfl rfl
        · exact sound_of_eq hs rfl rfl rfl
        · exact sound_of_eq hs rfl rfl rfl

end

end DeltaSwamp.Scan
