import DeltaSwamp.Scan.Ends

/-!
# The grouped scan

`Coalesced`: a tagged scan's batches merged into fewer, larger ones, never
across two groups of files; and what any scan and any merging of it delivers.
-/

namespace DeltaSwamp.Scan

open List

section
variable {V L ε : Type}

def coalesceRows : Nat := 131072

def coalesceBytes : Nat := 33554432

/-- The group of each path: the last that lists it. -/
def groupOf : Nat → List String → List Nat → Dict String Nat → Dict String Nat
  | _, _, [], groups => groups
  | group, paths, size :: sizes, groups =>
    groupOf (group + 1) (paths.drop size) sizes
      (groups.update ((paths.take size).map fun path => (path, group)))

/-- The files a group lists. -/
def groupPaths : List String → List Nat → Nat → List String
  | _, [], _ => []
  | paths, size :: _, 0 => paths.take size
  | paths, size :: sizes, group + 1 => groupPaths (paths.drop size) sizes group

/-- What a merging keeps as it is: the groups, the memory a batch takes, and whether batches fail to
be cast to one schema and put together. -/
structure Merging (L ε : Type) where
  groupOf : Dict String Nat
  memory : List (Row L) → Nat
  mergeError : List (List (Row L)) → Option ε

structure Held (L : Type) where
  batches : List (List (Row L))
  rows : Nat
  bytes : Nat
  group : Option Nat

def Held.empty : Held L := ⟨[], 0, 0, none⟩

/-- The batches held, as one. -/
def Merging.flush (merging : Merging L ε) : List (List (Row L)) → List (Except ε (List (Row L)))
  | [] => []
  | [batch] => [.ok batch]
  | batches =>
    match merging.mergeError batches with
    | some e => [.error e]
    | none => [.ok batches.flatten]

def Merging.groupOfRow (merging : Merging L ε) (row : Row L) : Option Nat :=
  row.file.bind merging.groupOf.get

/-- Whether a batch joins those held. -/
def Merging.fits (merging : Merging L ε) (held : Held L) (group : Option Nat)
    (batch : List (Row L)) : Bool :=
  group.isSome && decide (group = held.group) &&
    decide (held.rows + batch.length ≤ coalesceRows) &&
    decide (held.bytes + merging.memory batch ≤ coalesceBytes)

def Merging.coalesce (merging : Merging L ε) :
    Held L → List (Except ε (List (Row L))) → List (Except ε (List (Row L)))
  | held, [] => merging.flush held.batches
  | _, .error e :: _ => [.error e]
  | held, .ok [] :: items => merging.coalesce held items
  | held, .ok (row :: rows) :: items =>
    let batch := row :: rows
    let group := merging.groupOfRow row
    if merging.fits held group batch then
      merging.coalesce ⟨held.batches ++ [batch], held.rows + batch.length,
        held.bytes + merging.memory batch, group⟩ items
    else merging.flush held.batches ++
      merging.coalesce ⟨[batch], batch.length, merging.memory batch, group⟩ items

/-- The grouped scan of the items of a tagged one, refused where the sizes do not add up. -/
def grouped (paths : List String) (sizes : List Nat) (memory : List (Row L) → Nat)
    (mergeError : List (List (Row L)) → Option ε) (items : List (Except ε (List (Row L)))) :
    Except String (List (Except ε (List (Row L)))) :=
  if sizes.sum ≠ paths.length then
    .error ("file_groups sizes add up to " ++ toString sizes.sum ++ ", but " ++
      toString paths.length ++ " files were given")
  else
    .ok (untilError (Merging.coalesce ⟨groupOf 0 paths sizes [], memory, mergeError⟩ .empty items))

variable {paths : List String} {path : String}

theorem mem_update_const {group : Nat} (groups : Dict String Nat) {g : Nat}
    (h : (groups.update (paths.map fun path => (path, group))).get path = some g) :
    (path ∈ paths ∧ g = group) ∨ groups.get path = some g := by
  induction paths generalizing groups with
  | nil => exact .inr h
  | cons p paths ih =>
    rcases ih (groups.set p group) h with ⟨hmem, hg⟩ | hget
    · exact .inl ⟨mem_cons_of_mem p hmem, hg⟩
    · rw [Dict.get_set] at hget
      split_ifs at hget with hp
      · exact .inl ⟨hp ▸ mem_cons_self, (Option.some.inj hget).symm⟩
      · exact .inr hget

theorem groupOf_mem (start : Nat) (paths : List String) (sizes : List Nat)
    (groups : Dict String Nat) {g : Nat}
    (h : (groupOf start paths sizes groups).get path = some g) :
    (start ≤ g ∧ path ∈ groupPaths paths sizes (g - start)) ∨ groups.get path = some g := by
  induction sizes generalizing start paths groups with
  | nil => exact .inr h
  | cons size sizes ih =>
    rcases ih (start + 1) (paths.drop size) _ h with ⟨hle, hmem⟩ | hget
    · refine .inl ⟨by omega, ?_⟩
      rw [show g - start = g - (start + 1) + 1 by omega]
      exact hmem
    · rcases mem_update_const _ hget with ⟨hmem, rfl⟩ | hold
      · refine .inl ⟨Nat.le_refl _, ?_⟩
        rw [Nat.sub_self]
        exact hmem
      · exact .inr hold

theorem get_update_const {group : Nat} (groups : Dict String Nat)
    (h : path ∈ paths ∨ (groups.get path).isSome = true) :
    ((groups.update (paths.map fun path => (path, group))).get path).isSome = true := by
  induction paths generalizing groups with
  | nil => exact h.resolve_left (not_mem_nil)
  | cons p paths ih =>
    refine ih (groups.set p group) ?_
    rw [Dict.get_set]
    by_cases hp : path = p
    · right
      rw [if_pos hp]
      rfl
    · rw [if_neg hp]
      exact h.imp_left fun hmem => (mem_cons.mp hmem).resolve_left hp

theorem groupOf_isSome (start : Nat) (paths : List String) (sizes : List Nat)
    (groups : Dict String Nat) (hsizes : paths.length ≤ sizes.sum)
    (h : path ∈ paths ∨ (groups.get path).isSome = true) :
    ((groupOf start paths sizes groups).get path).isSome = true := by
  induction sizes generalizing start paths groups with
  | nil =>
    have hempty : paths = [] := eq_nil_of_length_eq_zero (Nat.le_zero.mp hsizes)
    rw [hempty] at h
    exact h.resolve_left not_mem_nil
  | cons size sizes ih =>
    refine ih (start + 1) (paths.drop size) _ ?_ ?_
    · rw [length_drop]
      rw [sum_cons] at hsizes
      omega
    · rcases h with hmem | hsome
      · rw [← take_append_drop size paths] at hmem
        rcases mem_append.mp hmem with htake | hdrop
        · exact .inr (get_update_const _ (.inl htake))
        · exact .inl hdrop
      · exact .inr (get_update_const _ (.inr hsome))

variable {merging : Merging L ε}

/-- The rows of a stream up to its first error. -/
def rowsOf : List (Except ε (List (Row L))) → List (Row L)
  | [] => []
  | .error _ :: _ => []
  | .ok batch :: items => batch ++ rowsOf items

def hasError : List (Except ε (List (Row L))) → Bool
  | [] => false
  | .error _ :: _ => true
  | .ok _ :: items => hasError items

theorem rowsOf_ok_append (batches : List (List (Row L))) (items : List (Except ε (List (Row L)))) :
    rowsOf (batches.map .ok ++ items) = batches.flatten ++ rowsOf items := by
  induction batches with
  | nil => rfl
  | cons batch batches ih =>
    simp only [map_cons, cons_append, rowsOf, ih, flatten_cons, append_assoc]

/-- Rows of the files of one group. -/
def OneGroup (merging : Merging L ε) (group : Nat) (batch : List (Row L)) : Prop :=
  ∀ row ∈ batch, merging.groupOfRow row = some group

variable (merging) in
theorem flush_cases (batches : List (List (Row L))) :
    (batches = [] ∧ merging.flush batches = []) ∨
      merging.flush batches = [.ok batches.flatten] ∨ ∃ e, merging.flush batches = [.error e] := by
  match batches with
  | [] => exact .inl ⟨rfl, rfl⟩
  | [batch] =>
    refine .inr (.inl ?_)
    rw [flatten_cons, flatten_nil, append_nil]
    rfl
  | batch :: batch' :: batches =>
    right
    cases herror : merging.mergeError (batch :: batch' :: batches) with
    | none =>
      left
      simp only [Merging.flush, herror]
    | some e =>
      right
      exact ⟨e, by simp only [Merging.flush, herror]⟩

variable {batch : List (Row L)}

/-- Coalescing puts no two groups in one batch. -/
theorem coalesce_oneGroup (items : List (Except ε (List (Row L)))) (held : Held L)
    (hheld : ∀ batch ∈ held.batches, ∃ group, held.group = some group ∧
      OneGroup merging group batch)
    (hitems : ∀ batch, .ok batch ∈ items → ∃ group, OneGroup merging group batch)
    (h : .ok batch ∈ merging.coalesce held items) : ∃ group, OneGroup merging group batch := by
  have hflush : ∀ held : Held L,
      (∀ batch ∈ held.batches, ∃ group, held.group = some group ∧ OneGroup merging group batch) →
      .ok batch ∈ merging.flush held.batches → ∃ group, OneGroup merging group batch := by
    intro held hheld hmem
    rcases flush_cases merging held.batches with ⟨-, hflush⟩ | hflush | ⟨e, hflush⟩
    · rw [hflush] at hmem
      cases hmem
    · rw [hflush] at hmem
      cases mem_singleton.mp hmem
      cases hgroup : held.group with
      | none =>
        refine ⟨0, fun row hrow => ?_⟩
        obtain ⟨batch, hbatch, -⟩ := mem_flatten.mp hrow
        obtain ⟨_, hsome, -⟩ := hheld batch hbatch
        rw [hgroup] at hsome
        cases hsome
      | some group =>
        refine ⟨group, fun row hrow => ?_⟩
        obtain ⟨batch, hbatch, hrow⟩ := mem_flatten.mp hrow
        obtain ⟨group', hsome, hall⟩ := hheld batch hbatch
        rw [hgroup] at hsome
        cases hsome
        exact hall row hrow
    · rw [hflush] at hmem
      cases mem_singleton.mp hmem
  induction items generalizing held with
  | nil => exact hflush held hheld h
  | cons item items ih =>
    have hrest : ∀ batch, .ok batch ∈ items → ∃ group, OneGroup merging group batch :=
      fun batch hbatch => hitems batch (mem_cons_of_mem _ hbatch)
    match item with
    | .error e =>
      cases mem_singleton.mp h
    | .ok [] => exact ih held hheld hrest h
    | .ok (row :: rows) =>
      obtain ⟨group, hgroup⟩ := hitems (row :: rows) mem_cons_self
      have hrow := hgroup row mem_cons_self
      simp only [Merging.coalesce] at h
      split_ifs at h with hfits
      · refine ih _ ?_ hrest h
        intro held' hheld'
        refine ⟨group, hrow, ?_⟩
        rcases mem_append.mp hheld' with hold | hnew
        · simp only [Merging.fits, Bool.and_eq_true, decide_eq_true_eq] at hfits
          obtain ⟨group', hsome, hall⟩ := hheld held' hold
          rw [← hfits.1.1.2, hrow] at hsome
          cases hsome
          exact hall
        · rw [mem_singleton.mp hnew]
          exact hgroup
      · rcases mem_append.mp h with hold | hnew
        · exact hflush held hheld hold
        · refine ih _ ?_ hrest hnew
          intro held' hheld'
          rw [mem_singleton.mp hheld']
          exact ⟨group, hrow, hgroup⟩

/-- Merging hands on the same rows in the same order, or a first part of them and an error. -/
theorem coalesce_rows (items : List (Except ε (List (Row L)))) (held : Held L) :
    (hasError items = false ∧ ∃ batches : List (List (Row L)),
      untilError (merging.coalesce held items) = batches.map .ok ∧
        batches.flatten = held.batches.flatten ++ rowsOf items) ∨
    ∃ (batches : List (List (Row L))) (e : ε),
      untilError (merging.coalesce held items) = batches.map .ok ++ [.error e] ∧
        batches.flatten <+: held.batches.flatten ++ rowsOf items := by
  induction items generalizing held with
  | nil =>
    rw [rowsOf, append_nil]
    rcases flush_cases merging held.batches with ⟨hempty, hflush⟩ | hflush |
      ⟨e, hflush⟩
    · refine .inl ⟨rfl, [], ?_, by rw [hempty]⟩
      rw [Merging.coalesce, hflush]
      rfl
    · refine .inl ⟨rfl, [held.batches.flatten], ?_, by simp⟩
      rw [Merging.coalesce, hflush]
      rfl
    · refine .inr ⟨[], e, ?_, nil_prefix⟩
      rw [Merging.coalesce, hflush]
      rfl
  | cons item items ih =>
    match item with
    | .error e => exact .inr ⟨[], e, rfl, nil_prefix⟩
    | .ok [] => exact ih held
    | .ok (row :: rows) =>
      simp only [Merging.coalesce, hasError, rowsOf]
      split_ifs with hfits
      · have hrest := ih ⟨held.batches ++ [row :: rows], held.rows + (row :: rows).length,
          held.bytes + merging.memory (row :: rows), merging.groupOfRow row⟩
        simpa using hrest
      · have hrest := ih ⟨[row :: rows], (row :: rows).length, merging.memory (row :: rows),
          merging.groupOfRow row⟩
        rw [flatten_singleton] at hrest
        rcases flush_cases merging held.batches with ⟨hempty, hflush⟩ | hflush |
          ⟨e, hflush⟩
        · rw [hflush, hempty]
          exact hrest
        · rw [hflush, singleton_append, untilError]
          rcases hrest with ⟨hnone, batches, hall, hrows⟩ | ⟨batches, e, hall, hrows⟩
          · refine .inl ⟨hnone, held.batches.flatten :: batches, ?_, ?_⟩
            · rw [hall]
              rfl
            · rw [flatten_cons, hrows]
          · refine .inr ⟨held.batches.flatten :: batches, e, ?_, ?_⟩
            · rw [hall]
              rfl
            · rw [flatten_cons]
              exact (prefix_append_right_inj _).mpr hrows
        · refine .inr ⟨[], e, ?_, nil_prefix⟩
          rw [hflush]
          rfl

variable {config : Config V L ε} {metadata : List (Except ε (List ScanFile))}

variable {items : List (Except ε (List (Row L)))}

theorem rowsOf_delivers {files : List ScanFile} (h : Delivers config (files.map .ok) items)
    (hnone : hasError items = false) :
    rowsOf items = files.flatMap (keptRows config.engine config.options) := by
  have hok : ∀ (batches : List (List (Row L))) (items : List (Except ε (List (Row L)))),
      hasError (batches.map .ok ++ items) = hasError items := by
    intro batches items
    induction batches with
    | nil => rfl
    | cons batch batches ih => exact ih
  induction files generalizing items with
  | nil =>
    cases h
    rfl
  | cons file files ih =>
    cases h with
    | file hrows hrest =>
      rw [hok] at hnone
      rw [rowsOf_ok_append, hrows, ih hrest hnone, flatMap_cons]
    | failed hload hfirst =>
      rw [hok] at hnone
      cases hnone

theorem mem_keptRows {file : ScanFile} {row : Row L}
    (h : row ∈ keptRows config.engine config.options file) :
    row.file = if config.options.tagPath then some file.path else none := by
  unfold keptRows at h
  split at h
  · obtain ⟨value, -, rfl⟩ := mem_map.mp h
    rfl
  · cases h

theorem delivers_batch {files : List (Except ε ScanFile)} (h : Delivers config files items)
    (hbatch : .ok batch ∈ items) :
    ∃ file, .ok file ∈ files ∧
      ∀ row ∈ batch, row.file = if config.options.tagPath then some file.path else none := by
  have hkept : ∀ {file : ScanFile} {batches : List (List (Row L))},
      batches.flatten <+: keptRows config.engine config.options file → batch ∈ batches →
      ∀ row ∈ batch, row.file = if config.options.tagPath then some file.path else none := by
    intro file batches hfirst hmem row hrow
    exact mem_keptRows (hfirst.subset (mem_flatten.mpr ⟨batch, hmem, hrow⟩))
  induction h with
  | nil => cases hbatch
  | @file file files batches items hrows hrest ih =>
    rcases mem_append.mp hbatch with hmem | hmem
    · obtain ⟨batch', hmem, heq⟩ := mem_map.mp hmem
      cases heq
      exact ⟨file, mem_cons_self, hkept (hrows ▸ prefix_refl _) hmem⟩
    · obtain ⟨file', hfile, hall⟩ := ih hmem
      exact ⟨file', mem_cons_of_mem _ hfile, hall⟩
  | @failed file files batches e hload hfirst =>
    rcases mem_append.mp hbatch with hmem | hmem
    · obtain ⟨batch', hmem, heq⟩ := mem_map.mp hmem
      cases heq
      exact ⟨file, mem_cons_self, hkept hfirst hmem⟩
    · cases mem_singleton.mp hmem
  | unplanned => cases mem_singleton.mp hbatch

theorem found_wanted {files d : Dict String ScanFile} (h : found config d metadata = .ok files)
    (hd : ∀ entry ∈ d, config.wanted entry.2 = true) :
    ∀ entry ∈ files, config.wanted entry.2 = true := by
  induction metadata generalizing d with
  | nil =>
    cases h
    exact hd
  | cons batch metadata ih =>
    cases batch with
    | error e => cases h
    | ok batch =>
      refine ih h fun entry hentry => ?_
      rcases Dict.mem_update hentry with hnew | hold
      · obtain ⟨file, hfile, rfl⟩ := mem_map.mp hnew
        exact (mem_filter.mp hfile).2
      · exact hd entry hold

theorem planned_mem {order : List String} {file : ScanFile} (horder : config.order = some order)
    (h : .ok file ∈ config.planned config.order metadata) : file.path ∈ order := by
  rw [horder, Config.planned] at h
  cases hfound : found config [] metadata with
  | error e =>
    rw [hfound] at h
    cases mem_singleton.mp h
  | ok files =>
    rw [hfound] at h
    dsimp only at h
    rw [removeEach_eq] at h
    obtain ⟨file', hfile, heq⟩ := mem_map.mp h
    cases heq
    obtain ⟨path, -, hget⟩ := mem_filterMap.mp hfile
    have hwanted := found_wanted hfound (fun _ hentry => by cases hentry) _
      (Dict.mem_of_get hget)
    simpa [Config.wanted, horder] using hwanted

theorem mem_of_untilError (h : .ok batch ∈ untilError items) : .ok batch ∈ items := by
  induction items with
  | nil => exact h
  | cons item items ih =>
    cases item with
    | error e => cases mem_singleton.mp h
    | ok b =>
      rcases mem_cons.mp h with heq | hrest
      · exact heq ▸ mem_cons_self
      · exact mem_cons_of_mem _ (ih hrest)

theorem grouped_groups {sizes : List Nat} {memory : List (Row L) → Nat}
    {mergeError : List (List (Row L)) → Option ε} {out : List (Except ε (List (Row L)))}
    (htag : config.options.tagPath = true) (horder : config.order = some paths)
    (h : grouped paths sizes memory mergeError (config.all metadata) = .ok out)
    (hbatch : .ok batch ∈ out) :
    ∃ group, ∀ row ∈ batch, ∃ path ∈ groupPaths paths sizes group, row.file = some path := by
  unfold grouped at h
  split_ifs at h with hsizes
  rw [not_not] at hsizes
  cases h
  have hdelivers : Delivers config (config.planned config.order metadata) (config.all metadata) :=
    delivers_untilError _
  have hitems : ∀ batch, .ok batch ∈ config.all metadata →
      ∃ group, OneGroup (⟨groupOf 0 paths sizes [], memory, mergeError⟩ : Merging L ε) group
        batch := by
    intro batch hbatch
    obtain ⟨file, hfile, hrows⟩ := delivers_batch hdelivers hbatch
    have hgroup := groupOf_isSome 0 paths sizes [] (by omega) (.inl (planned_mem horder hfile))
    obtain ⟨group, hgroup⟩ := Option.isSome_iff_exists.mp hgroup
    refine ⟨group, fun row hrow => ?_⟩
    unfold Merging.groupOfRow
    rw [hrows row hrow, if_pos htag]
    exact hgroup
  obtain ⟨group, hgroup⟩ := coalesce_oneGroup _ .empty (fun _ hheld => by cases hheld) hitems
    (mem_of_untilError hbatch)
  refine ⟨group, fun row hrow => ?_⟩
  obtain ⟨path, hpath, hget⟩ := Option.bind_eq_some_iff.mp (hgroup row hrow)
  rcases groupOf_mem 0 paths sizes [] hget with ⟨-, hmem⟩ | hnone
  · exact ⟨path, hmem, hpath⟩
  · cases hnone

/-- However its files are divided, batched, masked and read ahead, a scan hands on each planned
file's kept rows, each once and in order, or a first part of them and the file's error; with few
files in flight, and without stopping short. Grouped, its batches keep to one group each; and an
error, which ends the scan, may come before the rows that waited to be merged. -/
theorem scan_delivers (config : Config V L ε) (metadata : List (Except ε (List ScanFile))) :
    Delivers config (config.planned config.order metadata) (config.all metadata) ∧
    (∀ batches : List (List ScanFile), metadata = batches.map .ok →
      (batches.flatten.map ScanFile.path).Nodup →
      ∃ files, files = config.order.elim batches.flatten (fun order =>
          order.eraseDups.filterMap fun path => batches.flatten.find? (·.path = path)) ∧
        config.planned config.order metadata = files.map .ok ∧
        (hasError (config.all metadata) = false →
          rowsOf (config.all metadata) = files.flatMap (keptRows config.engine config.options))) ∧
    (∀ s, Run (step config) (fun _ _ => True) (config.start metadata) s →
      s.inflight.length ≤ prefetchFiles ∧ (s.learned = false → s.inflight.length ≤ 2) ∧
      s.out <+: config.all metadata ∧ (s.finished = true → s.out = config.all metadata) ∧
      (s.finished = false → ∃ e s', step config s e = some s')) ∧
    (∀ events s,
      replay (step config) (fun _ _ => True) (config.start metadata) events = some s →
        events.length ≤ (config.start metadata).left config) ∧
    (∀ paths sizes memory mergeError out, config.options.tagPath = true →
      config.order = some paths →
      grouped paths sizes memory mergeError (config.all metadata) = .ok out →
      (∀ batch, .ok batch ∈ out → ∃ group, ∀ row ∈ batch,
        ∃ path ∈ groupPaths paths sizes group, row.file = some path) ∧
      ((hasError (config.all metadata) = false ∧ ∃ batches : List (List (Row L)),
          out = batches.map .ok ∧ batches.flatten = rowsOf (config.all metadata)) ∨
        ∃ (batches : List (List (Row L))) (e : ε), out = batches.map .ok ++ [.error e] ∧
          batches.flatten <+: rowsOf (config.all metadata))) := by
  have hdelivers : Delivers config (config.planned config.order metadata) (config.all metadata) :=
    delivers_untilError _
  refine ⟨hdelivers, ?_, ?_, fun events s => run_ends, ?_⟩
  · rintro batches rfl hdistinct
    refine ⟨_, rfl, planned_eq hdistinct, fun hnone => ?_⟩
    rw [planned_eq hdistinct] at hdelivers
    exact rowsOf_delivers hdelivers hnone
  · intro s hrun
    obtain ⟨hsound, -⟩ := run_sound hrun
    obtain ⟨hfirst, hall⟩ := run_out hrun
    refine ⟨hsound.few.trans (limit_le s).2, fun hlearned => ?_, hfirst, hall,
      step_exists hsound⟩
    have hfew := hsound.few
    unfold State.limit at hfew
    rwa [hlearned, if_neg Bool.false_ne_true] at hfew
  · intro paths sizes memory mergeError out htag horder hout
    refine ⟨fun batch => grouped_groups htag horder hout, ?_⟩
    unfold grouped at hout
    split_ifs at hout
    cases hout
    exact coalesce_rows _ .empty

end

/-- Two files of one group: the first holds a row, the second is gone. -/
def goneSecond : Config Nat Nat String where
  engine :=
    { selectionVector := fun _ => .ok none
      readParquet := fun file => if file.path = "a" then .ok [.ok [7]] else .error "gone"
      transformError := fun _ _ => none
      logical := fun _ value => value
      rowCommitVersion := fun _ => none
      internalError := id
      generic := id }
  options := ⟨true, false⟩
  memory := List.length
  order := some ["a", "b"]

/-- The scan hands on the first file's row and then the error; grouped, it hands on the error
alone. -/
theorem grouped_drops_held :
    goneSecond.all [.ok [⟨"a", 1, some 1, none⟩, ⟨"b", 1, some 1, none⟩]] =
      [.ok [⟨some "a", 0, 7, none⟩], .error "gone"] ∧
    grouped ["a", "b"] [2] List.length (fun _ => none)
        (goneSecond.all [.ok [⟨"a", 1, some 1, none⟩, ⟨"b", 1, some 1, none⟩]]) =
      .ok [.error "gone"] := by
  decide

end DeltaSwamp.Scan
