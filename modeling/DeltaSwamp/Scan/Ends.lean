import DeltaSwamp.Scan.Delivered

/-!
# A scan comes to its end

Some worker or the consumer can always go on, and each step lowers what is left
to do.
-/

namespace DeltaSwamp.Scan

open List

section
variable {V L ε : Type} {config : Config V L ε} {s s' : State V L ε}

theorem step_exists (hs : s.Sound config) (hfinished : s.finished = false) :
    ∃ e s', step config s e = some s' := by
  by_cases hturn : ∃ s', turn config s = some s'
  · obtain ⟨s', h⟩ := hturn
    exact ⟨.turn, s', h⟩
  · have hnone : turn config s = none := by
      cases h : turn config s with
      | none => rfl
      | some s' => exact absurd ⟨s', h⟩ hturn
    unfold turn at hnone
    rw [hfinished, if_neg Bool.false_ne_true] at hnone
    cases hready : s.ready with
    | cons batch ready =>
      rw [hready] at hnone
      cases hnone
    | nil =>
      cases hcurrent : s.current with
      | some opened =>
        rw [hready, hcurrent] at hnone
        cases hnone
      | none =>
        rw [hready, hcurrent] at hnone
        dsimp only at hnone
        split_ifs at hnone with hwaiting hahead
        · cases hinflight : s.inflight with
          | nil => exact absurd hinflight (hs.waits hwaiting)
          | cons task inflight =>
            rw [hinflight] at hnone
            dsimp only at hnone
            split_ifs at hnone with hdone
            refine ⟨.done 0, { s with inflight := s.inflight.set 0 { task with done := true } },
              ?_⟩
            simp only [step, hinflight, List.getElem?_cons_zero, if_neg hdone]
        · cases hpending : s.pending with
          | nil =>
            rw [hpending] at hnone
            cases hnone
          | cons file pending =>
            rw [hpending] at hnone
            dsimp only at hnone
            cases hopen : openFile config.engine file with
            | error e =>
              rw [hopen] at hnone
              cases hnone
            | ok opened =>
              rw [hopen] at hnone
              cases hnone

/-- How many batches a file is read in. -/
def Config.weight (config : Config V L ε) (file : ScanFile) : Nat :=
  if config.prefetch then
    match loadFile config.engine config.options file with
    | .error _ => 0
    | .ok batches => batches.length
  else
    match openFile config.engine file with
    | .error _ => 0
    | .ok opened => opened.batches.length

def Config.pendingLeft (config : Config V L ε) (files : List ScanFile) : Nat :=
  (files.map fun file => 6 + config.weight file).sum

def Config.inflightLeft (config : Config V L ε) (tasks : List Task) : Nat :=
  (tasks.map fun task => 4 + config.weight task.file).sum

/-- Workers still reading: they go on after the scan has failed. -/
def undone (tasks : List Task) : Nat := (tasks.map fun task => (!task.done).toNat).sum

def Config.planLeft (config : Config V L ε) (order : Option (List String))
    (metadata : List (Except ε (List ScanFile))) : Nat :=
  match order with
  | some order =>
    match found config [] metadata with
    | .error _ => 1
    | .ok files => 1 + config.pendingLeft (removeEach files order)
  | none =>
    (metadata.map fun
      | .error _ => 1
      | .ok batch => 1 + config.pendingLeft (batch.filter config.wanted)).sum

/-- What every step lowers. -/
def State.left (config : Config V L ε) (s : State V L ε) : Nat :=
  undone s.inflight +
    if s.finished then 0
    else 1 + s.ready.length + (s.current.elim 0 fun opened => 2 + opened.batches.length) +
      config.inflightLeft s.inflight + config.pendingLeft s.pending +
      config.planLeft s.order s.metadata + (!s.waiting).toNat

theorem left_open (h : s.finished = false) :
    s.left config = undone s.inflight + (1 + s.ready.length +
      (s.current.elim 0 fun opened => 2 + opened.batches.length) +
      config.inflightLeft s.inflight + config.pendingLeft s.pending +
      config.planLeft s.order s.metadata + (!s.waiting).toNat) := by
  unfold State.left
  rw [h, if_neg Bool.false_ne_true]

theorem left_finished (hs' : s'.finished = true) (hs : s.finished = false)
    (hundone : undone s'.inflight ≤ undone s.inflight) : s'.left config < s.left config := by
  rw [left_open hs, State.left, hs', if_pos rfl]
  omega

variable (config) in
theorem fill_left (limit : Nat) (ratio : ℚ) (pending : List ScanFile) (inflight : List Task)
    (bytes : Nat) :
    undone (fill limit ratio pending inflight bytes).2.1 +
          config.inflightLeft (fill limit ratio pending inflight bytes).2.1 +
        config.pendingLeft (fill limit ratio pending inflight bytes).1 ≤
      undone inflight + config.inflightLeft inflight + config.pendingLeft pending := by
  induction pending generalizing inflight bytes with
  | nil => exact Nat.le_refl _
  | cons file pending ih =>
    unfold fill
    split_ifs
    · refine (ih _ _).trans ?_
      simp only [undone, Config.inflightLeft, Config.pendingLeft, map_append, map_cons,
        map_nil, sum_append, sum_cons, sum_nil, Bool.not_false,
        Bool.toNat_true]
      omega
    · exact Nat.le_refl _

theorem nextOpen_left {opened : OpenFile V ε} (hfinished : s.finished = false)
    (hcurrent : s.current = some opened) :
    (nextOpen config s opened).left config < s.left config := by
  unfold nextOpen
  cases hbatches : opened.batches with
  | nil =>
    dsimp only
    rw [left_open hfinished, left_open (by exact hfinished), hcurrent]
    simp only [Option.elim_some, Option.elim_none]
    omega
  | cons batch batches =>
    cases batch with
    | error e => exact left_finished rfl hfinished (Nat.le_refl _)
    | ok physical =>
      dsimp only
      cases finishBatch config.engine config.options opened.file opened.selection physical with
      | error e => exact left_finished rfl hfinished (Nat.le_refl _)
      | ok finished =>
        obtain ⟨rows, selection⟩ := finished
        dsimp only [State.deliver]
        rw [left_open hfinished, left_open (by exact hfinished), hcurrent]
        simp only [Option.elim_some, hbatches, length_cons]
        omega

theorem takePrefetched_left {task : Task} {inflight : List Task}
    (hprefetch : config.prefetch = true)
    (hfinished : s.finished = false) (hwaiting : s.waiting = true)
    (hinflight : s.inflight = task :: inflight) :
    (takePrefetched config s task inflight).left config < s.left config := by
  have hundone : undone inflight ≤ undone s.inflight := by
    rw [hinflight]
    exact Nat.le_add_left _ _
  unfold takePrefetched
  cases hload : loadFile config.engine config.options task.file with
  | error e => exact left_finished rfl hfinished hundone
  | ok batches =>
    have hweight : config.weight task.file = batches.length := by
      unfold Config.weight
      rw [if_pos hprefetch, hload]
    dsimp only
    rw [left_open hfinished, left_open (by exact hfinished)]
    rw [hinflight] at hundone ⊢
    simp only [Config.inflightLeft, map_cons, sum_cons, length_append, hweight,
      hwaiting, Bool.not_true, Bool.not_false, Bool.toNat_true, Bool.toNat_false]
    omega

theorem planNext_left (hfinished : s.finished = false) :
    (planNext config s).left config < s.left config := by
  have hpending : ∀ files more : List ScanFile,
      config.pendingLeft (files ++ more) = config.pendingLeft files + config.pendingLeft more := by
    intro files more
    unfold Config.pendingLeft
    rw [map_append, sum_append]
  unfold planNext
  cases horder : s.order with
  | some order =>
    dsimp only
    cases hfound : found config [] s.metadata with
    | error e => exact left_finished rfl hfinished (Nat.le_refl _)
    | ok files =>
      dsimp only
      rw [left_open hfinished, left_open (by exact hfinished), hpending]
      simp only [horder, Config.planLeft, hfound, map_nil, sum_nil]
      omega
  | none =>
    dsimp only
    cases hmetadata : s.metadata with
    | nil => exact left_finished rfl hfinished (Nat.le_refl _)
    | cons batch metadata =>
      cases batch with
      | error e => exact left_finished rfl hfinished (Nat.le_refl _)
      | ok batch =>
        dsimp only
        rw [left_open hfinished, left_open (by exact hfinished), hpending]
        simp only [horder, hmetadata, Config.planLeft, map_cons, sum_cons]
        omega

theorem turn_left (hs : s.Sound config) (h : turn config s = some s') :
    s'.left config < s.left config := by
  obtain ⟨hfinished, hcases⟩ := turn_cases h
  rcases hcases with ⟨batch, ready, hready, rfl⟩ | ⟨hready, opened, hcurrent, rfl⟩ |
    ⟨hready, hcurrent, hcases⟩
  · rw [left_open hfinished, left_open (by exact hfinished), hready]
    simp only [State.deliver, length_cons]
    omega
  · exact nextOpen_left hfinished hcurrent
  · rcases hcases with ⟨hwaiting, task, inflight, hinflight, -, rfl⟩ | ⟨hwaiting, -, -, rfl⟩ |
      ⟨-, hnone, ⟨-, rfl⟩ | ⟨file, pending, hpending, hopen⟩⟩
    · refine takePrefetched_left (hs.ahead ?_) hfinished hwaiting hinflight
      rw [hinflight]
      exact cons_ne_nil _ _
    · have hfill := fill_left config s.limit s.decodedRatio s.pending s.inflight s.inflightBytes
      rw [left_open hfinished, left_open (by exact hfinished), hwaiting]
      simp only [State.fillPrefetch, Bool.not_true, Bool.not_false, Bool.toNat_true,
        Bool.toNat_false]
      omega
    · exact planNext_left hfinished
    · have hprefetch : config.prefetch = false := by
        by_contra hprefetch
        rw [Bool.not_eq_false] at hprefetch
        refine fill_nonempty s.decodedRatio s.inflight s.inflightBytes ?_ ?_ (hnone hprefetch)
        · have hlimit := (limit_le s).1
          omega
        · rw [hpending]
          exact cons_ne_nil _ _
      rcases hopen with ⟨e, -, rfl⟩ | ⟨opened, hopen, rfl⟩
      · exact left_finished rfl hfinished (Nat.le_refl _)
      · have hweight : config.weight file = opened.batches.length := by
          unfold Config.weight
          rw [hprefetch, if_neg Bool.false_ne_true, hopen]
        rw [left_open hfinished, left_open (by exact hfinished), hcurrent, hpending]
        simp only [Config.pendingLeft, map_cons, sum_cons, hweight, Option.elim_some,
          Option.elim_none]
        omega

theorem sum_map_set {β : Type} (f : β → Nat) (l : List β) {k : Nat} {a : β} (b : β)
    (ha : l[k]? = some a) : ((l.set k b).map f).sum + f a = (l.map f).sum + f b := by
  induction l generalizing k with
  | nil => cases ha
  | cons c l ih =>
    cases k with
    | zero =>
      cases ha
      simp only [set_cons_zero, map_cons, sum_cons]
      omega
    | succ k =>
      have hrest := ih ha
      simp only [set_cons_succ, map_cons, sum_cons]
      omega

theorem step_left {e : Event} (hs : s.Sound config) (h : step config s e = some s') :
    s'.left config < s.left config := by
  cases e with
  | turn => exact turn_left hs h
  | done k =>
    obtain ⟨task, htask, hdone, rfl⟩ := done_eq h
    have hundone := sum_map_set (fun task : Task => (!task.done).toNat) s.inflight
      { task with done := true } htask
    have hinflight := sum_map_set (fun task : Task => 4 + config.weight task.file) s.inflight
      { task with done := true } htask
    simp only [hdone, Bool.not_true, Bool.not_false, Bool.toNat_true, Bool.toNat_false]
      at hundone
    unfold State.left undone Config.inflightLeft
    dsimp only at hinflight ⊢
    split_ifs <;> omega

end

section
variable {V L ε : Type} {config : Config V L ε} {s s' : State V L ε}

/-- Each planned file in turn: all its kept rows; or a first part of them and its error, at which
the scan ends. -/
inductive Delivers (config : Config V L ε) :
    List (Except ε ScanFile) → List (Except ε (List (Row L))) → Prop where
  | nil : Delivers config [] []
  | file {file : ScanFile} {files : List (Except ε ScanFile)} {batches : List (List (Row L))}
      {items : List (Except ε (List (Row L)))} :
      batches.flatten = keptRows config.engine config.options file → Delivers config files items →
      Delivers config (.ok file :: files) (batches.map .ok ++ items)
  | failed {file : ScanFile} {files : List (Except ε ScanFile)} {batches : List (List (Row L))}
      {e : ε} :
      loadFile config.engine config.options file = .error e →
      batches.flatten <+: keptRows config.engine config.options file →
      Delivers config (.ok file :: files) (batches.map .ok ++ [.error e])
  | unplanned {e : ε} {files : List (Except ε ScanFile)} :
      Delivers config (.error e :: files) [.error e]

/-- What a scan delivers, up to its first error. -/
def Config.all (config : Config V L ε) (metadata : List (Except ε (List ScanFile))) :
    List (Except ε (List (Row L))) :=
  untilError ((config.planned config.order metadata).flatMap config.planItems)

theorem delivers_untilError (files : List (Except ε ScanFile)) :
    Delivers config files (untilError (files.flatMap config.planItems)) := by
  induction files with
  | nil => exact .nil
  | cons file files ih =>
    rw [flatMap_cons]
    cases file with
    | error e => exact .unplanned
    | ok file =>
      obtain ⟨batches, ⟨hitems, hrows⟩ | ⟨e, hload, hitems, hfirst⟩⟩ :=
        items_delivers config file
      · rw [Config.planItems, hitems, untilError_ok_append]
        exact .file hrows ih
      · rw [Config.planItems, hitems, append_assoc, untilError_ok_append]
        exact .failed hload hfirst

theorem start_rest (metadata : List (Except ε (List ScanFile))) :
    (config.start metadata).rest config = config.all metadata := by
  rw [rest_open rfl]
  rfl

variable {metadata : List (Except ε (List ScanFile))}

theorem run_sound (h : Run (step config) (fun _ _ => True) (config.start metadata) s) :
    s.Sound config ∧ s.out ++ s.rest config = config.all metadata := by
  refine h.invariant (P := fun s => s.Sound config ∧ s.out ++ s.rest config = config.all metadata)
    ⟨start_sound metadata, start_rest metadata⟩ ?_
  intro s t e hs _ hstep
  exact ⟨step_sound hs.1 hstep, (step_conserves hs.1 hstep).trans hs.2⟩

theorem run_out (h : Run (step config) (fun _ _ => True) (config.start metadata) s) :
    s.out <+: config.all metadata ∧ (s.finished = true → s.out = config.all metadata) := by
  obtain ⟨-, hall⟩ := run_sound h
  refine ⟨⟨_, hall⟩, fun hfinished => ?_⟩
  rw [← hall, State.rest, if_pos hfinished, append_nil]

theorem run_ends {events : List Event}
    (h : replay (step config) (fun _ _ => True) (config.start metadata) events = some s) :
    events.length ≤ (config.start metadata).left config := by
  have hlower : ∀ (s t : State V L ε) (e : Event), s.Sound config → True →
      step config s e = some t → t.Sound config ∧ t.left config < s.left config := by
    intro s t e hs _ hstep
    exact ⟨step_sound hs hstep, step_left hs hstep⟩
  have hbound := length_le_of_replay hlower (start_sound metadata) h
  omega

theorem found_ok {files : Dict String ScanFile} {batches : List (List ScanFile)}
    {d : Dict String ScanFile} (h : found config d (batches.map .ok) = .ok files) :
    files =
      d.update ((batches.flatten.filter config.wanted).map fun file => (file.path, file)) := by
  induction batches generalizing d with
  | nil =>
    cases h
    rfl
  | cons batch batches ih =>
    rw [ih h, flatten_cons, filter_append, map_append]
    exact (foldl_append ..).symm

variable (config) in
theorem found_planned (batches : List (List ScanFile)) (d : Dict String ScanFile) :
    ∃ files, found config d (batches.map .ok) = .ok files := by
  induction batches generalizing d with
  | nil => exact ⟨d, rfl⟩
  | cons batch batches ih => exact ih _

theorem get_entries (files : List ScanFile) (path : String) :
    Dict.get (files.map fun file => (file.path, file)) path = files.find? (·.path = path) := by
  induction files with
  | nil => rfl
  | cons file files ih =>
    rw [map_cons, Dict.get, ih, List.find?_cons]
    by_cases hpath : path = file.path
    · simp [hpath]
    · simp [hpath, Ne.symm hpath]

theorem removeEach_eq (order : List String) (files : Dict String ScanFile) :
    removeEach files order = order.eraseDups.filterMap files.get := by
  induction hn : order.length using Nat.strong_induction_on generalizing order files with
  | _ n ih =>
    cases order with
    | nil => rfl
    | cons path order =>
      have hskip : ∀ (order : List String) (files : Dict String ScanFile),
          files.get path = none →
          removeEach files order = removeEach files (order.filter fun p => !p == path) := by
        intro order
        induction order with
        | nil => exact fun _ _ => rfl
        | cons p order ihorder =>
          intro files hnone
          by_cases hp : p = path
          · subst hp
            rw [filter_cons_of_neg (by simp), removeEach, hnone]
            exact ihorder files hnone
          · rw [filter_cons_of_pos (by simp [hp]), removeEach, removeEach]
            cases hget : files.get p with
            | none => exact ihorder files hnone
            | some file =>
              dsimp only
              rw [ihorder (files.pop p) (by rw [Dict.get_pop, hnone, ite_self])]
      have hlt : (order.filter fun p => !p == path).length < n := by
        have hle := length_filter_le (fun p => !p == path) order
        rw [length_cons] at hn
        omega
      rw [eraseDups_cons, filterMap_cons, removeEach]
      cases hget : files.get path with
      | none =>
        dsimp only
        rw [hskip order files hget, ih _ hlt _ _ rfl]
      | some file =>
        dsimp only
        have hpop : (files.pop path).get path = none := by
          rw [Dict.get_pop, if_pos rfl]
        rw [hskip order _ hpop, ih _ hlt _ _ rfl]
        congr 1
        refine filterMap_congr fun p hp => ?_
        have hne : p ≠ path := by
          have hmem := mem_filter.mp (mem_eraseDups.mp hp)
          simpa using hmem.2
        rw [Dict.get_pop, if_neg hne]

/-- Where the metadata reads and no two files have one path, the files planned are all of them, or
those an order names, in its order. -/
theorem planned_eq {batches : List (List ScanFile)}
    (hdistinct : (batches.flatten.map ScanFile.path).Nodup) :
    config.planned config.order (batches.map .ok) =
      (config.order.elim batches.flatten fun order =>
        order.eraseDups.filterMap fun path => batches.flatten.find? (·.path = path)).map .ok := by
  cases horder : config.order with
  | none =>
    have hwanted : ∀ batch : List ScanFile, batch.filter config.wanted = batch := by
      intro batch
      refine filter_eq_self.mpr fun file _ => ?_
      simp [Config.wanted, horder]
    simp only [Config.planned, flatMap_map, hwanted, Option.elim_none]
    rw [map_flatten, flatMap_def]
  | some order =>
    obtain ⟨files, hfiles⟩ := found_planned config batches []
    simp only [Config.planned, hfiles, Option.elim_some]
    rw [removeEach_eq, found_ok hfiles]
    congr 1
    refine filterMap_congr fun path hpath => ?_
    have hnodup : (((batches.flatten.filter config.wanted).map fun file =>
        (file.path, file)).map Prod.fst).Nodup := by
      rw [map_map]
      exact hdistinct.sublist (filter_sublist.map _)
    rw [Dict.get_update [] hnodup, get_entries, List.find?_filter, Dict.get, Option.or_none]
    congr 1
    funext file
    by_cases hfile : file.path = path
    · simp [hfile, Config.wanted, horder, mem_eraseDups.mp hpath]
    · simp [hfile]

end

end DeltaSwamp.Scan
