import DeltaSwamp.Commit.Fragments
import Mathlib.Data.List.ReduceOption

/-!
# One commit names each file once

What a commit of fragments adds and removes, in either mode, and how far a
call that fails had come.
-/

namespace DeltaSwamp.Commit

open List

/-- The paths a batch of add-file metadata names. -/
def AddBatch.paths (batch : AddBatch) : List Text :=
  match batch.path with
  | .texts paths => paths.reduceOption
  | .missing | .uncastable _ | .notText => []

/-- A batch every row of which names a file. -/
def AddBatch.Named (batch : AddBatch) : Prop :=
  ∃ paths : List Text, batch.path = .texts (paths.map some)

theorem addPaths_ok {seen after : List Text} {paths : List (Option Text)}
    (h : addPaths seen paths = .ok after) (hseen : seen.Nodup) :
    (∃ named : List Text, paths = named.map some) ∧ after.Nodup ∧
      after.Perm (seen ++ paths.reduceOption) := by
  induction paths generalizing seen with
  | nil =>
    cases h
    exact ⟨⟨[], rfl⟩, hseen, by simp⟩
  | cons path paths ih =>
    cases path with
    | none => cases h
    | some path =>
      rw [addPaths] at h
      split_ifs at h with hpath
      obtain ⟨⟨named, hnamed⟩, hnodup, hperm⟩ := ih h (nodup_cons.mpr ⟨hpath, hseen⟩)
      refine ⟨⟨path :: named, by rw [hnamed]; rfl⟩, hnodup, hperm.trans ?_⟩
      rw [reduceOption_cons_of_some, cons_append]
      exact perm_middle.symm

theorem refuseDuplicatePaths_ok {seen after : List Text} {batch : AddBatch}
    (h : refuseDuplicatePaths seen batch = .ok after) (hseen : seen.Nodup) :
    batch.Named ∧ after.Nodup ∧ after.Perm (seen ++ batch.paths) := by
  rw [refuseDuplicatePaths] at h
  cases hpath : batch.path with
  | missing => rw [hpath] at h; cases h
  | uncastable shown => rw [hpath] at h; cases h
  | notText => rw [hpath] at h; cases h
  | texts paths =>
    rw [hpath] at h
    obtain ⟨⟨named, hnamed⟩, hnodup, hperm⟩ := addPaths_ok h hseen
    refine ⟨⟨named, by rw [hpath, hnamed]⟩, hnodup, ?_⟩
    rwa [AddBatch.paths, hpath]

/-- The batches kept so far name each of their files once, and `seen` is those files. -/
structure Distinct (kept : List Text × List AddBatch) : Prop where
  nodup : kept.1.Nodup
  seen : kept.1.Perm (kept.2.flatMap AddBatch.paths)
  named : ∀ batch ∈ kept.2, batch.Named

theorem Distinct.keepBatch {kept after : List Text × List AddBatch} {batch : AddBatch}
    (h : keepBatch kept batch = .ok after) (hkept : Distinct kept) : Distinct after := by
  obtain ⟨seen, hseen, h⟩ := Result.bind_eq_ok_iff.mp h
  cases Result.pure_eq_ok_iff.mp h
  obtain ⟨hnamed, hnodup, hperm⟩ := refuseDuplicatePaths_ok hseen hkept.nodup
  refine ⟨hnodup, ?_, ?_⟩
  · rw [flatMap_append, flatMap_singleton]
    exact hperm.trans (hkept.seen.append_right _)
  · intro other hother
    rcases mem_append.mp hother with hother | hother
    · exact hkept.named other hother
    · rw [mem_singleton.mp hother]
      exact hnamed

theorem keepBatch_snd {kept after : List Text × List AddBatch} {batch : AddBatch}
    (h : keepBatch kept batch = .ok after) : after.2 = kept.2 ++ [batch] := by
  obtain ⟨seen, -, h⟩ := Result.bind_eq_ok_iff.mp h
  cases Result.pure_eq_ok_iff.mp h
  rfl

theorem keepBatches_snd {kept after : List Text × List AddBatch} {batches : List AddBatch}
    (h : batches.foldlM Commit.keepBatch kept = .ok after) : after.2 = kept.2 ++ batches := by
  induction batches generalizing kept with
  | nil =>
    rw [foldlM_nil, Result.pure_eq_ok_iff] at h
    simp [h]
  | cons batch batches ih =>
    rw [foldlM_cons, Result.bind_eq_ok_iff] at h
    obtain ⟨next, hnext, h⟩ := h
    rw [ih h, keepBatch_snd hnext, append_assoc, singleton_append]

section
variable {readStream : Bytes → Except Text IpcStream} {tableRoot metadataId : Text}
  {fragments : List Bytes} {kept : List Text × List AddBatch}

theorem Distinct.keepFragment {before after : List Text × List AddBatch} {fragment : Bytes}
    (h : Commit.keepFragment readStream tableRoot metadataId before fragment = .ok after)
    (hbefore : Distinct before) : Distinct after := by
  obtain ⟨batches, -, hbatches⟩ := Result.bind_eq_ok_iff.mp h
  exact Result.invariant_of_foldlM_ok (fun _ _ _ hkeep hdistinct => hdistinct.keepBatch hkeep)
    hbatches hbefore

theorem keepFragments_snd {start : List Text × List AddBatch}
    (h : fragments.foldlM (keepFragment readStream tableRoot metadataId) start = .ok kept) :
    ∃ batches, fragments.mapM (ipcToBatches readStream tableRoot metadataId) = .ok batches ∧
      kept.2 = start.2 ++ batches.flatten := by
  induction fragments generalizing start with
  | nil =>
    rw [foldlM_nil, Result.pure_eq_ok_iff] at h
    exact ⟨[], rfl, by simp [h]⟩
  | cons fragment fragments ih =>
    rw [foldlM_cons, Result.bind_eq_ok_iff] at h
    obtain ⟨next, hnext, h⟩ := h
    obtain ⟨first, hfirst, hkept⟩ := Result.bind_eq_ok_iff.mp hnext
    obtain ⟨batches, hbatches, hlater⟩ := ih h
    refine ⟨first :: batches, ?_, ?_⟩
    · rw [mapM_cons, hfirst, hbatches]
      rfl
    · rw [hlater, keepBatches_snd hkept, flatten_cons, append_assoc]

theorem decodeFragments_ok
    (h : decodeFragments readStream tableRoot metadataId fragments = .ok kept) :
    Distinct kept ∧ ∃ batches,
      fragments.mapM (ipcToBatches readStream tableRoot metadataId) = .ok batches ∧
        kept.2 = batches.flatten := by
  constructor
  · exact Result.invariant_of_foldlM_ok
      (fun _ _ _ hkeep hdistinct => hdistinct.keepFragment hkeep) h ⟨nodup_nil, .nil, by simp⟩
  · simpa using keepFragments_snd h

theorem ipcToBatches_ok {bytes : Bytes} {batches : List AddBatch}
    (h : ipcToBatches readStream tableRoot metadataId bytes = .ok batches) :
    (bytes = [] ∧ batches = []) ∨ ∃ stream, readStream bytes = .ok stream ∧
      stream.metadata.get fragmentTableRoot = some tableRoot ∧
        stream.metadata.get fragmentMetadataId = some metadataId := by
  unfold ipcToBatches at h
  split_ifs at h with hempty
  · cases h
    exact .inl ⟨hempty, rfl⟩
  · obtain ⟨stream, hstream, h⟩ := Result.bind_eq_ok_iff.mp h
    split at h
    · rename_i root id hroot hid
      split_ifs at h with hother
      rw [not_or, not_not, not_not] at hother
      refine .inr ⟨stream, ?_, by rw [hroot, hother.1], by rw [hid, hother.2]⟩
      cases hread : readStream bytes with
      | error e => rw [hread] at hstream; cases hstream
      | ok read => rw [hread] at hstream; cases hstream; rfl
    · cases h

end

section
variable {α β : Type}

@[simp] theorem selectedRows_nil (rows : List α) : selectedRows [] rows = rows := by
  cases rows <;> rfl

theorem selectedRows_map (f : α → β) (selection : List Bool) (rows : List α) :
    selectedRows selection (rows.map f) = (selectedRows selection rows).map f := by
  induction rows generalizing selection with
  | nil => cases selection <;> rfl
  | cons row rows ih =>
    cases selection with
    | nil => simp
    | cons keep selection =>
      cases keep with
      | true => simp [selectedRows, ih]
      | false => simp [selectedRows, ih]

@[simp] theorem selectedRows_all (rows : List α) :
    selectedRows (List.replicate rows.length true) rows = rows := by
  induction rows with
  | nil => rfl
  | cons row rows ih => rw [length_cons, replicate_succ, selectedRows, ih]

/-- What staged actions remove. -/
def keysOf (key : α → FileKey) (staged : List (Filtered (List α))) : List FileKey :=
  staged.flatMap fun f => (selectedRows f.selection f.data).map key

@[simp] theorem keysOf_nil (key : α → FileKey) : keysOf key [] = [] := rfl

theorem keysOf_concat (key : α → FileKey) (staged : List (Filtered (List α)))
    (last : Filtered (List α)) :
    keysOf key (staged ++ [last]) =
      keysOf key staged ++ (selectedRows last.selection last.data).map key := by
  simp [keysOf]

end

/-- The files a transaction removes, by the kernel's actions and by those staged by hand. -/
def Staged.removed (staged : Staged) : List FileKey :=
  keysOf ScanRow.key staged.removes ++ keysOf Remove.key staged.extraActions

theorem selectedRows_units {selection : List Bool} {rows : List ScanRow}
    (h : selectedRows selection (List.replicate rows.length ()) = []) :
    selectedRows selection rows = [] := by
  rw [← map_const', selectedRows_map, map_eq_nil_iff] at h
  exact h

theorem compactScanRows_ok {filtered : Filtered ScanData} {adds : List Text}
    {out : Option (List ScanRow × List Bool)} (h : compactScanRows filtered adds = .ok out) :
    (∀ row ∈ liveRows (.ok filtered), ∀ path, row.path = some path → path ∉ adds) ∧
      (out = none → liveRows (.ok filtered) = []) ∧
      ∀ rows selected, out = some (rows, selected) → selected = List.replicate rows.length true ∧
        rows.map ScanRow.key = (liveRows (.ok filtered)).map ScanRow.key := by
  obtain ⟨data, selection⟩ := filtered
  cases data with
  | other n =>
    rw [compactScanRows] at h
    split_ifs at h with hnone
    cases h
    exact ⟨by simp [liveRows], fun _ => rfl, by simp⟩
  | arrow rows =>
    rw [compactScanRows] at h
    split_ifs at h with hnone
    · cases h
      have hlive : liveRows (.ok ⟨.arrow rows, selection⟩) = [] := selectedRows_units hnone
      exact ⟨by simp [hlive], fun _ => hlive, by simp⟩
    · simp only at h
      split at h
      · cases h
      · rename_i hlive
        cases h
        refine ⟨?_, by simp, ?_⟩
        · intro row hrow path hpath hadds
          have hrowNone := List.findSome?_eq_none_iff.mp hlive row hrow
          rw [hpath] at hrowNone
          simp [hadds] at hrowNone
        · rintro _ _ ⟨⟩
          simp [liveRows, ScanRow.key, Function.comp_def]

section
variable {lib : Committer} {byHand : Bool} {adds : List Text}

theorem tryNew_ok {α : Type} {rows : List α} {selected : List Bool} {staged : Filtered (List α)}
    (h : lib.tryNew rows selected = .ok staged) : staged = ⟨rows, selected⟩ := by
  obtain ⟨-, -, h⟩ := Result.bind_eq_ok_iff.mp h
  exact (Result.pure_eq_ok_iff.mp h).symm

theorem removesOf_ok {rows : List ScanRow} {staged : Filtered (List Remove)}
    (h : lib.removesOf rows (List.replicate rows.length true) = .ok staged) :
    (selectedRows staged.selection staged.data).map Remove.key = rows.map ScanRow.key := by
  obtain ⟨-, -, h⟩ := Result.bind_eq_ok_iff.mp h
  obtain rfl := tryNew_ok h
  have hselected := selectedRows_all (rows.map (removeOf lib.nowMillis true))
  rw [length_map] at hselected
  simp only [hselected, map_map]
  rfl

section
variable {batches : List (Except NativeError (Filtered ScanData))} {filtered : Filtered ScanData}
  {removes removes' : List (Filtered (List ScanRow))} {extra extra' : List (Filtered (List Remove))}

theorem stageRemoves_cons
    (h : lib.stageRemoves byHand adds (.ok filtered :: batches) removes extra =
      (.ok removes', extra')) :
    (∀ row ∈ liveRows (.ok filtered), ∀ path, row.path = some path → path ∉ adds) ∧
      ∃ removes₁ extra₁,
        lib.stageRemoves byHand adds batches removes₁ extra₁ = (.ok removes', extra') ∧
          (keysOf ScanRow.key removes₁ ++ keysOf Remove.key extra₁).Perm
            (keysOf ScanRow.key removes ++ keysOf Remove.key extra ++
              (liveRows (.ok filtered)).map ScanRow.key) := by
  rw [Committer.stageRemoves] at h
  cases hcompact : compactScanRows filtered adds with
  | error e =>
    rw [hcompact] at h
    cases h
  | ok out =>
    obtain ⟨hadded, hempty, hrows⟩ := compactScanRows_ok hcompact
    refine ⟨hadded, ?_⟩
    rw [hcompact] at h
    cases out with
    | none =>
      rw [hempty rfl]
      exact ⟨removes, extra, h, by simp⟩
    | some kept =>
      obtain ⟨rows, selected⟩ := kept
      obtain ⟨rfl, hkeys⟩ := hrows rows selected rfl
      rw [← hkeys]
      cases byHand with
      | true =>
        cases hstaged : lib.removesOf rows (List.replicate rows.length true) with
        | error e => simp [hstaged] at h
        | ok staged =>
          simp only [hstaged, if_true] at h
          refine ⟨removes, extra ++ [staged], h, ?_⟩
          rw [keysOf_concat, removesOf_ok hstaged, append_assoc]
      | false =>
        cases hstaged : lib.tryNew rows (List.replicate rows.length true) with
        | error e => simp [hstaged] at h
        | ok staged =>
          simp only [hstaged, Bool.false_eq_true, if_false] at h
          refine ⟨removes ++ [staged], extra, h, ?_⟩
          rw [keysOf_concat, tryNew_ok hstaged, selectedRows_all, append_assoc, append_assoc]
          exact perm_append_comm.append_left _

theorem stageRemoves_ok
    (h : lib.stageRemoves byHand adds batches removes extra = (.ok removes', extra')) :
    (keysOf ScanRow.key removes' ++ keysOf Remove.key extra').Perm
        (keysOf ScanRow.key removes ++ keysOf Remove.key extra ++
          (batches.flatMap liveRows).map ScanRow.key) ∧
      ∀ row ∈ batches.flatMap liveRows, ∀ path, row.path = some path → path ∉ adds := by
  induction batches generalizing removes extra with
  | nil =>
    cases h
    simp
  | cons batch batches ih =>
    cases batch with
    | error e => cases h
    | ok filtered =>
      obtain ⟨hadded, removes₁, extra₁, hlater, hfirst⟩ := stageRemoves_cons h
      obtain ⟨hperm, hothers⟩ := ih hlater
      rw [flatMap_cons]
      constructor
      · rw [map_append, ← append_assoc]
        exact hperm.trans (hfirst.append_right _)
      · intro row hrow path hpath
        rcases mem_append.mp hrow with hrow | hrow
        · exact hadded row hrow path hpath
        · exact hothers row hrow path hpath

end

/-- The removes of an overwrite are the snapshot's live files, and no path among `adds`. -/
theorem overwriteRemoves_ok {snapshot : TableSnapshot} {removes : List (Filtered (List ScanRow))}
    {extra : List (Filtered (List Remove))}
    (h : lib.overwriteRemoves snapshot adds = (.ok removes, extra)) :
    (keysOf ScanRow.key removes ++ keysOf Remove.key extra).Perm
        (snapshot.live.map ScanRow.key) ∧
      ∀ row ∈ snapshot.live, ∀ path, row.path = some path → path ∉ adds := by
  rw [Committer.overwriteRemoves] at h
  rw [TableSnapshot.live]
  cases hscan : snapshot.scan with
  | error e =>
    rw [hscan] at h
    cases h
  | ok batches =>
    rw [hscan] at h
    simp only at h ⊢
    split_ifs at h with hbyHand
    · cases hnew : lib.newRemovesByHand with
      | error e =>
        rw [hnew] at h
        cases h
      | ok _ =>
        rw [hnew] at h
        simpa using stageRemoves_ok h
    · simpa using stageRemoves_ok h

end

/-- What a call hands the kernel to commit. -/
structure NamedOnce (lib : Committer) (snapshot : TableSnapshot) (fragments : List Bytes)
    (overwrite : Bool) (staged : Staged) : Prop where
  adds : ∃ batches, fragments.mapM
    (ipcToBatches lib.readStream snapshot.tableRoot snapshot.metadataId) = .ok batches ∧
      staged.adds = batches.flatten
  named : ∀ batch ∈ staged.adds, batch.Named
  distinct : (staged.adds.flatMap AddBatch.paths).Nodup
  identified : ∀ fragment ∈ fragments, fragment ≠ [] → ∃ stream,
    lib.readStream fragment = .ok stream ∧
      stream.metadata.get fragmentTableRoot = some snapshot.tableRoot ∧
        stream.metadata.get fragmentMetadataId = some snapshot.metadataId
  removed : staged.removed.Perm (if overwrite then snapshot.live.map ScanRow.key else [])
  disjoint : ∀ path ∈ staged.adds.flatMap AddBatch.paths, some path ∉ staged.removed.map Prod.fst

theorem namedOnce_of_steps {lib : Committer} {snapshot : TableSnapshot} {fragments : List Bytes}
    {overwrite : Bool} {seen : List Text} {decoded : List AddBatch}
    {removes : List (Filtered (List ScanRow))} {extra : List (Filtered (List Remove))}
    (hdecode : decodeFragments lib.readStream snapshot.tableRoot snapshot.metadataId fragments =
      .ok (seen, decoded))
    (hremoves : lib.removesFor snapshot overwrite seen = (.ok removes, extra)) :
    NamedOnce lib snapshot fragments overwrite ⟨decoded, removes, extra⟩ := by
  obtain ⟨hdistinct, batches, hbatches, hadds⟩ := decodeFragments_ok hdecode
  have hseen : ∀ path, path ∈ decoded.flatMap AddBatch.paths ↔ path ∈ seen :=
    fun path => hdistinct.seen.mem_iff.symm
  have hremoved : (Staged.removed ⟨decoded, removes, extra⟩).Perm
      (if overwrite then snapshot.live.map ScanRow.key else []) ∧
      ∀ path ∈ seen, some path ∉ (Staged.removed ⟨decoded, removes, extra⟩).map Prod.fst := by
    cases overwrite with
    | true =>
      obtain ⟨hperm, hlive⟩ := overwriteRemoves_ok hremoves
      refine ⟨hperm, fun path hpath hmem => ?_⟩
      obtain ⟨key, hkey, hfst⟩ := mem_map.mp hmem
      obtain ⟨row, hrow, rfl⟩ := mem_map.mp (hperm.mem_iff.mp hkey)
      exact hlive row hrow path hfst hpath
    | false =>
      cases hremoves
      simp [Staged.removed]
  refine ⟨⟨batches, hbatches, hadds⟩, hdistinct.named, ?_, ?_, hremoved.1, ?_⟩
  · exact hdistinct.seen.nodup_iff.mp hdistinct.nodup
  · intro fragment hfragment hne
    obtain ⟨decodedHere, hhere⟩ := Result.exists_ok_of_mapM_ok hbatches fragment hfragment
    rcases ipcToBatches_ok hhere with ⟨hempty, -⟩ | hstream
    · exact absurd hempty hne
    · exact hstream
  · exact fun path hpath => hremoved.2 path ((hseen path).mp hpath)

theorem committed_of_finish {lowerChar : Char → Text} {commit : Except KernelError CommitResult}
    {version : Version}
    (h : (finishCommitAs lowerChar commit).mapError FilesError.native = .ok version) :
    commit = .ok (.committed version) := by
  cases commit with
  | error e => cases h
  | ok result =>
    cases result with
    | committed committed =>
      cases h
      rfl
    | conflicted winner => cases h
    | retryable => cases h

/-- A committed call of `commit_files` adds every batch of its fragments, all
written for this table, each file once, and removes the snapshot's live files
if it overwrites, none of them added. Any other call fails before its
transaction holds an action, or because the kernel's commit of such a
transaction did. -/
theorem files_once (lib : Committer) (snapshot : TableSnapshot) (fragments : List Bytes)
    (overwrite : Bool) :
    (∀ version, (lib.commitFiles snapshot fragments overwrite).1 = .ok version →
      lib.commit (lib.commitFiles snapshot fragments overwrite).2 = .ok (.committed version) ∧
        NamedOnce lib snapshot fragments overwrite
          (lib.commitFiles snapshot fragments overwrite).2) ∧
      ∀ e, (lib.commitFiles snapshot fragments overwrite).1 = .error e →
        ((lib.commitFiles snapshot fragments overwrite).2.adds = [] ∧
          (lib.commitFiles snapshot fragments overwrite).2.removes = []) ∨
        ((∃ failure, finishCommitAs lib.lowerChar
            (lib.commit (lib.commitFiles snapshot fragments overwrite).2) = .error failure ∧
              e = .native failure) ∧
          NamedOnce lib snapshot fragments overwrite
            (lib.commitFiles snapshot fragments overwrite).2) := by
  unfold Committer.commitFiles
  cases hrestate : lib.restate snapshot with
  | error e => simp [Staged.nothing]
  | ok _ =>
    simp only
    cases hdecode : decodeFragments lib.readStream snapshot.tableRoot snapshot.metadataId
        fragments with
    | error e => simp [Staged.nothing]
    | ok kept =>
      obtain ⟨seen, decoded⟩ := kept
      simp only
      obtain ⟨removes, extra, hremoves⟩ :
          ∃ removes extra, lib.removesFor snapshot overwrite seen = (removes, extra) :=
        ⟨_, _, rfl⟩
      rw [hremoves]
      cases removes with
      | error e => simp
      | ok removes =>
        simp only
        cases hbegin : lib.beginTransaction snapshot with
        | error e => simp
        | ok _ =>
          have honce := namedOnce_of_steps hdecode hremoves
          refine ⟨fun version hversion => ⟨committed_of_finish hversion, honce⟩, ?_⟩
          intro e he
          refine .inr ⟨?_, honce⟩
          cases hfinish : finishCommitAs lib.lowerChar
              (lib.commit ⟨decoded, removes, extra⟩) with
          | error failure =>
            simp only [hfinish] at he
            exact ⟨failure, rfl, (Except.error.inj he).symm⟩
          | ok version =>
            simp only [hfinish] at he
            cases he

/-- A fragment of the table `r` with the one file `a`, and a commit that loses its race. -/
def racing : Committer where
  readStream := fun _ => .ok ⟨[(fragmentTableRoot, "r".toList), (fragmentMetadataId, "i".toList)],
    [.ok ⟨.texts [some "a".toList]⟩]⟩
  restate := fun _ => .ok ()
  newRemovesByHand := .ok ()
  evaluate := fun _ => .ok ()
  checkSelection :=
    fun rows selected => if rows < selected.length then .error .selection else .ok ()
  nowMillis := 0
  beginTransaction := fun _ => .ok ()
  commit := fun _ => .ok (.conflicted 3)
  lowerChar := fun c => [c]

def liveFile (path : Text) : Except NativeError (Filtered ScanData) :=
  .ok ⟨.arrow [⟨some path, none, none, none, none, none, none, none⟩], []⟩

/-- A row-tracked table with the live files `b` and `a`, one in each scan batch. -/
def tracked : TableSnapshot where
  tableRoot := "r".toList
  metadataId := "i".toList
  configuration := []
  rowTracking := true
  icebergCompatV3 := false
  scan := .ok [liveFile "b".toList, liveFile "a".toList]

/-- A commit that loses its race fails with its actions staged, and an
overwrite refused at its second scan batch has staged the first one's removes
by hand. -/
theorem staged_before_failure :
    (¬ ∀ (lib : Committer) (snapshot : TableSnapshot) (fragments : List Bytes) (overwrite : Bool) e,
      (lib.commitFiles snapshot fragments overwrite).1 = .error e →
        (lib.commitFiles snapshot fragments overwrite).2 = .nothing) ∧
      (racing.commitFiles tracked [[1]] true).1 = .error (.live "a".toList) ∧
        (racing.commitFiles tracked [[1]] true).2.extraActions.length = 1 := by
  refine ⟨fun hnothing => ?_, by rfl, by rfl⟩
  have hstaged := hnothing racing tracked [[1]] false _ rfl
  exact absurd (congrArg (fun staged => staged.adds.length) hstaged) (by decide)

end DeltaSwamp.Commit
