import DeltaSwamp.Conflict.Merge

/-!
# Statements in the order of their commits

A statement whose change is committed over the commits that won leaves what it
leaves when run over them, the rows of the winning blind appends aside.
-/

namespace DeltaSwamp.Conflict

open Table Rewrite List

/-- The change as it is committed: by deletion vectors, or by rewriting files. -/
def change {ν : Type} {st : Storage (Row ν)} (c : Contents st) (dvPath : Bool) (a : Asked ν) :
    Asked ν :=
  if a.deletions ≠ [] ∧ dvPath = false then asFileRewrites c a else a

/-- The files a change touches. -/
def touchedBy {ν : Type} (a : Asked ν) : List Path := a.deletions.map Prod.fst ++ a.whole

section
variable {ν : Type} {st : Storage (Row ν × Bool)} {acts : Row ν → Bool} {touched : List Path}
  {c₀ c : Contents (plain st)} {upperChar lowerChar : Char → Text}
  {keeps : Text → AddFile → Bool} {readPredicate : Option Text}

theorem covered_at_read (hkeys : ∀ path, path ∈ touched ↔ path ∈ (deletions c₀ acts).map Prod.fst) :
    Covered st acts touched c₀.log c₀.log := by
  constructor
  · intro f hf r hr hconcerned
    have hacts := (Bool.and_eq_true_iff.mp hconcerned).1
    have hne : matchedAt (plain st) acts f ≠ ∅ := by
      intro hnone
      have hrows : (plain st).rowsAt f.path (matchedAt (plain st) acts f) =
          ((plain st).liveRows f).filter acts := matchedAt_eq acts f
      rw [hnone, Storage.rowsAt_empty, plain_liveRows] at hrows
      have hmem : r.1 ∈ ((st.liveRows f).map Prod.fst).filter acts :=
        mem_filter.mpr ⟨mem_map_of_mem hr, hacts⟩
      rw [← hrows] at hmem
      cases hmem
    have hmem := (mem_deletions c₀ acts).mpr ⟨f, hf, rfl, rfl, hne⟩
    exact (hkeys f.path).mpr (mem_map_of_mem hmem)
  · intro path hpath
    refine ⟨?_, rfl⟩
    obtain ⟨⟨p, rows⟩, hmem, rfl⟩ := mem_map.mp ((hkeys path).mp hpath)
    obtain ⟨f, hf, hsame, -⟩ := (mem_deletions c₀ acts).mp hmem
    have hne : ((files c₀.log).filter fun g => g.path = p) ≠ [] :=
      ne_nil_of_mem (mem_filter.mpr ⟨hf, decide_eq_true hsame⟩)
    change (vectorOf c₀.log p).isSome = true
    rw [vectorOf, List.getLast?_eq_some_getLast hne]
    rfl

theorem matchedAt_congr {f g : AddFile} (hpath : f.path = g.path)
    (hvector : f.deletionVector = g.deletionVector) :
    matchedAt (plain st) acts f = matchedAt (plain st) acts g := by
  simp only [matchedAt, Storage.visible, Storage.hiddenRows, Storage.count, hpath, hvector]

theorem left_asked_rebased
    (hkeys : ∀ path, path ∈ touched ↔ path ∈ (deletions c₀ acts).map Prod.fst)
    (hcovered : Covered st acts touched c₀.log c.log) (hvalid : st.Valid c.log)
    (hunmarked : Unmarked st c₀.log) (data : Option (List (Row ν))) :
    left c (asked c₀ acts data) =
      (((st.rows (files c.log)).filter fun r => !concerned acts r).map Prod.fst : List (Row ν)) +
        (data.getD [] : Multiset (Row ν)) := by
  unfold left
  congr 2
  rw [Storage.rows, filter_flatMap, map_flatMap]
  refine flatMap_congr fun f hf => ?_
  have hexpected : Dml.expected (request (asked c₀ acts data)) ((plain st).scanFile f) =
      (plain st).visible f \ (request (asked c₀ acts data)).requested f.path := by
    rw [Dml.expected_rows (fun hw => absurd hw not_mem_nil),
      Storage.scanFile_visible (c.valid.describes f hf)]
    rfl
  rw [hexpected]
  by_cases htouched : f.path ∈ touched
  · obtain ⟨f₀, hf₀, hpath, hvector⟩ := hcovered.same hvalid hf htouched
    have hrequested : (request (asked c₀ acts data)).requested f.path =
        matchedAt (plain st) acts f := by
      rw [← hpath, requested_eq c₀ acts data hf₀, matchedAt_congr hpath hvector]
    rw [hrequested, kept_eq acts f, plain_liveRows, filter_map]
    congr 1
    refine filter_congr fun r hr => ?_
    have hmark : r.2 = false := by
      refine hunmarked f₀ hf₀ r ?_
      rw [hpath]
      exact rowsAt_contents hr
    simp [concerned, hmark]
  · have hrequested : (request (asked c₀ acts data)).requested f.path = ∅ := by
      have hnone : (deletions c₀ acts).lookup f.path = none :=
        (Assoc.lookup_eq_none_iff f.path).mpr fun hmem => htouched ((hkeys f.path).mpr hmem)
      rw [request_requested]
      change ((deletions c₀ acts).lookup f.path).getD ∅ = ∅
      rw [hnone]
      rfl
    rw [hrequested, Finset.sdiff_empty]
    change (plain st).liveRows f = _
    rw [plain_liveRows]
    congr 1
    refine (filter_eq_self.mpr fun r hr => ?_).symm
    rw [Bool.not_eq_true']
    rw [← Bool.not_eq_true]
    exact fun hconcerned => htouched (hcovered.rows f hf r hr hconcerned)

theorem left_rewrites_rebased
    (hkeys : ∀ path, path ∈ touched ↔ path ∈ (deletions c₀ acts).map Prod.fst)
    (hcovered : Covered st acts touched c₀.log c.log) (horigin : st.Valid c₀.log)
    (hvalid : st.Valid c.log) (hunmarked : Unmarked st c₀.log) (hapart : Apart c₀ acts)
    (data : Option (List (Row ν))) :
    left c (asFileRewrites c₀ (asked c₀ acts data)) =
      (((st.rows (files c.log)).filter fun r => !concerned acts r).map Prod.fst : List (Row ν)) +
        (data.getD [] : Multiset (Row ν)) := by
  have hwhole : ∀ path, path ∈ (asFileRewrites c₀ (asked c₀ acts data)).whole ↔ path ∈ touched := by
    intro path
    rw [asFileRewrites_whole, hkeys, touchedPaths, mem_insertionSort, mem_dedup]
  have hback : (readBack c₀ (deletions c₀ acts)).Perm
      ((((files c.log).filter fun f => f.path ∈ touched).flatMap fun f =>
        (st.liveRows f).filter fun r => !concerned acts r).map Prod.fst) := by
    refine ((readBack_perm_iff c₀ acts).mpr hapart).trans ?_
    refine List.Perm.trans (List.Perm.of_eq ?_)
      ((hcovered.touched_rows horigin hvalid fun r => !concerned acts r).map Prod.fst)
    have hsame : ∀ path, path ∈ touchedPaths (deletions c₀ acts) ↔ path ∈ touched := by
      intro path
      rw [hkeys, touchedPaths, mem_insertionSort, mem_dedup]
    simp only [hsame]
    rw [map_flatMap]
    refine flatMap_congr fun f hf => ?_
    have hf₀ := (mem_filter.mp hf).1
    rw [plain_liveRows, filter_map]
    congr 1
    refine filter_congr fun r hr => ?_
    simp [concerned, hunmarked f hf₀ r (rowsAt_contents hr)]
  have hrest := hcovered.split.2.map Prod.fst
  rw [map_append] at hrest
  rw [left_whole c _ rfl, asFileRewrites_data, Multiset.coe_eq_coe.mpr hrest]
  simp only [hwhole]
  rw [Storage.bag, plain_rows, ← Multiset.coe_add, ← Multiset.coe_add,
    Multiset.coe_eq_coe.mpr hback, add_assoc]

theorem left_everyFile_rebased {live : Int} (hnonempty : c₀.log ≠ [])
    (hunmarked : Unmarked st c₀.log)
    (hsound : SkipsSoundly st keeps readPredicate fun _ => true)
    (h : Rebased upperChar lowerChar st (fun _ => true) keeps
      ((files c₀.log).map AddFile.path) readPredicate c₀.log c.log) :
    left c (everyFile c₀ live) = aside st c.log := by
  have hstart : Covered st (fun _ => true) ((files c₀.log).map AddFile.path) c₀.log c₀.log := by
    constructor
    · intro f hf _ _ _
      exact mem_map_of_mem hf
    · intro path hpath
      obtain ⟨f, hf, rfl⟩ := mem_map.mp hpath
      rw [vectorOf_of_mem h.valid_origin hf]
      exact ⟨rfl, rfl⟩
  obtain ⟨-, hcovered⟩ := h.covered hnonempty hsound hstart
  have htouched : (((files c.log).filter fun f => f.path ∈ (files c₀.log).map AddFile.path).flatMap
      fun f => (st.liveRows f).filter fun r => !concerned (fun _ => true) r) = [] := by
    rw [flatMap_eq_nil_iff]
    intro f hf
    obtain ⟨hf, hpath⟩ := mem_filter.mp hf
    obtain ⟨f₀, hf₀, hsame, -⟩ := hcovered.same h.valid hf (of_decide_eq_true hpath)
    rw [filter_eq_nil_iff]
    intro r hr
    have hmark : r.2 = false := by
      refine hunmarked f₀ hf₀ r ?_
      rw [hsame]
      exact rowsAt_contents hr
    simp [concerned, hmark]
  have hrest := hcovered.split.2.map Prod.fst
  rw [htouched, append_nil] at hrest
  have hnone : (others st c.log).filter (fun _ => !true) = [] :=
    filter_eq_nil_iff.mpr fun _ _ => Bool.false_ne_true
  have haside := filter_concerned st (fun _ => true) c.log
  rw [hnone, nil_append] at haside
  rw [left_whole c (everyFile c₀ live) rfl]
  change (plain st).bag _ + 0 = _
  rw [add_zero, Storage.bag, plain_rows]
  exact Multiset.coe_eq_coe.mpr (hrest.symm.trans haside)

end

section
variable {τ ν L σ : Type} [DecidableEq τ] [DecidableEq ν] {engine : Engine τ ν L}
  {schema : List (Column τ)} {upperChar lowerChar : Char → Text} {keeps : Text → AddFile → Bool}
  {readPredicate : Option Text} {st : Storage (Row ν × Bool)} {c₀ c : Contents (plain st)}
  {command : Command τ ν L σ} {a : Asked ν} {dvPath : Bool}

variable (engine schema) in
/-- What matches a source row on the snapshot returned matched it when the MERGE read. -/
theorem newRows_rebased (hnonempty : c₀.log ≠ [])
    (hsound : SkipsSoundly st keeps readPredicate command.reads) {touched : List Path}
    (h : Rebased upperChar lowerChar st command.reads keeps touched readPredicate c₀.log c.log)
    (rows : List (Row ν)) :
    command.newRows engine schema ((plain st).rows (files c₀.log) ++ others st c.log) rows =
      command.newRows engine schema ((plain st).rows (files c₀.log)) rows := by
  refine Command.newRows_append fun t ht hreads => ?_
  obtain ⟨r, hr, rfl⟩ := mem_map.mp ht
  obtain ⟨hr, hmark⟩ := mem_filter.mp hr
  obtain ⟨f, hf, hr⟩ := mem_flatMap.mp hr
  have hconcerned : concerned command.reads r = true := by
    rw [concerned, hreads, Bool.true_and]
    exact hmark
  rw [plain_rows]
  exact mem_map_of_mem ((h.known hnonempty hsound).2 f hf r hr hconcerned)

/-- On the snapshot the rebases return, the change leaves what the statement
leaves when run there on the rows no winning blind append wrote, beside those. A
MERGE inserts the source rows that match no row there and matched none when it read. -/
theorem left_rebased (hnonempty : c₀.log ≠ []) (hunmarked : Unmarked st c₀.log)
    (hsound : SkipsSoundly st keeps readPredicate command.reads)
    (hstaged : command.staged engine schema c₀ = some (some a))
    (hapart : dvPath = true ∨ Apart c₀ command.acts)
    (h : Rebased upperChar lowerChar st command.reads keeps (touchedBy (change c₀ dvPath a))
      readPredicate c₀.log c.log) :
    ∃ rest, command.run engine schema ((plain st).rows (files c₀.log) ++ others st c.log)
        (others st c.log) = some rest ∧
      left c (change c₀ dvPath a) = rest + aside st c.log := by
  have hacts := h.mono command.reads_of_acts
  rcases Command.staged_eq hstaged with ⟨new, hnew, rfl⟩ | ⟨rfl, live, rfl⟩
  · have hkeys : ∀ path, path ∈ touchedBy (change c₀ dvPath (asked c₀ command.acts (dataOf new))) ↔
        path ∈ (deletions c₀ command.acts).map Prod.fst := by
      intro path
      unfold change touchedBy
      split_ifs
      · change path ∈ [] ++ (asFileRewrites c₀ (asked c₀ command.acts (dataOf new))).whole ↔ _
        rw [nil_append, asFileRewrites_whole, touchedPaths, mem_insertionSort,
          mem_dedup]
      · change path ∈ (deletions c₀ command.acts).map Prod.fst ++ [] ↔ _
        rw [append_nil]
    have hstart := covered_at_read hkeys
    obtain ⟨-, hcovered⟩ :=
      hacts.covered hnonempty (hsound.mono command.reads_of_acts) hstart
    have hmatched : (((plain st).rows (files c₀.log)).filter command.acts).Perm
        ((others st c.log).filter command.acts) := by
      rw [hunmarked.rows, others_filter]
      exact (hcovered.concerned_perm hstart h.valid_origin h.valid).map Prod.fst
    obtain ⟨again, hagain, hperm⟩ := Command.newRows_perm hmatched hnew
    have hleft : left c (change c₀ dvPath (asked c₀ command.acts (dataOf new))) =
        (((st.rows (files c.log)).filter fun r => !concerned command.acts r).map Prod.fst :
          List (Row ν)) + ((dataOf new).getD [] : Multiset (Row ν)) := by
      unfold change
      split_ifs with hrewrite
      · rcases hapart with hpath | hapart
        · rw [hpath] at hrewrite
          cases hrewrite.2
        · exact left_rewrites_rebased hkeys hcovered h.valid_origin h.valid hunmarked hapart _
      · exact left_asked_rebased hkeys hcovered h.valid hunmarked _
    have hrun := newRows_rebased engine schema hnonempty hsound h
      (others st c.log)
    refine ⟨_, by rw [Command.run, hrun, hagain]; rfl, ?_⟩
    rw [hleft, dataOf_getD, Multiset.coe_eq_coe.mpr (filter_concerned st command.acts c.log),
      ← Multiset.coe_add, Multiset.coe_eq_coe.mpr hperm]
    exact add_right_comm _ _ _
  · have hchange : change c₀ dvPath (everyFile c₀ live) = everyFile c₀ live :=
      if_neg fun hne => hne.1 rfl
    rw [hchange] at h ⊢
    have hnone : (others st c.log).filter (fun _ => !true) = [] :=
      filter_eq_nil_iff.mpr fun _ _ => Bool.false_ne_true
    refine ⟨0, ?_, ?_⟩
    · change some ((((others st c.log).filter fun _ => !true : List (Row ν)) :
        Multiset (Row ν)) + ([] : List (Row ν))) = _
      rw [hnone]
      rfl
    · rw [left_everyFile_rebased hnonempty hunmarked hsound h, zero_add]

/-- Committed over the commits that won, a statement's change leaves what the
statement leaves of the rows no winning blind append wrote, beside those; a MERGE
inserts the source rows that match none of them and matched none when it read. -/
theorem rebased_in_order (hnonempty : c₀.log ≠ []) (hunmarked : Unmarked st c₀.log)
    (hsound : SkipsSoundly st keeps readPredicate command.reads)
    (hstaged : command.staged engine schema c₀ = some (some a))
    (hapart : dvPath = true ∨ Apart c₀ command.acts)
    (h : Rebased upperChar lowerChar st command.reads keeps (touchedBy (change c₀ dvPath a))
      readPredicate c₀.log c.log)
    {staged : Dml.Staged} {w : Storage.Written}
    (hcommit : Dml.stage ((plain st).scan c.log c.valid.nodup) (request (change c₀ dvPath a)) =
      .ok (some staged))
    (hw : (plain st).Holds c.log staged w)
    (hdata : (plain st).bag w.files = ((change c₀ dvPath a).data.getD [] : List (Row ν)))
    (txns : List (Text × Int)) (info : Option Json) :
    ∃ rest, command.run engine schema ((plain st).rows (files c₀.log) ++ others st c.log)
        (others st c.log) = some rest ∧
      (plain st).bag (files (c.log ++ [(plain st).entryOf c.log staged w true txns info])) =
        rest + aside st c.log := by
  rw [bag_staged hcommit hw hdata]
  exact left_rebased hnonempty hunmarked hsound hstaged hapart h

end

def keepCase (c : Char) : Text := [c]

def marked : Storage (Row (Option Int) × Bool) where
  contents path :=
    if path = ['a'] then [([some 1], false), ([some 2], false)]
    else if path = ['b'] then [([some 1], false)]
    else if path = ['x'] then [([some 1], true)]
    else if path = ['n'] then [([some 2], false)]
    else []
  hidden _ := {0}

def fileOf (name : Char) (rows : Nat) (vector : Option DeletionVector) : AddFile :=
  { path := [name], partitionValues := [], size := 1, dataChange := true, stats := none,
    numRecords := some rows, tags := [], deletionVector := vector, baseRowId := none,
    defaultRowCommitVersion := none }

def firstHidden : DeletionVector := ⟨['u'], ['v'], none, 1, 1⟩

def committing (adds : List AddFile) (removes : List FileKey) (blind : Bool) : Entry :=
  { adds, removes, metaData := none, protocol := none, txns := [],
    commitInfo := some (.obj [("isBlindAppend", .bool blind)]) }

def withFiles (adds : List AddFile) : Log :=
  [{ adds, removes := [], metaData := some ⟨"t", "", [], [("delta.enableDeletionVectors", "true")]⟩,
     protocol := some ⟨3, 7, some ["deletionVectors"], some ["deletionVectors"]⟩, txns := [],
     commitInfo := none }]

/-- `DELETE FROM t WHERE x = 1`. -/
def deleteOnes : Command Integer (Option Int) Int (Row (Option Int)) :=
  .plain (.delete (some fun r => (r.getD 0 none).map fun n => n = 1))

/-- A DELETE under way while a row is appended. -/
def atRead : Contents (plain marked) where
  log := withFiles [fileOf 'a' 2 none]
  valid := by decide
  counted := by decide

def appended : Contents (plain marked) where
  log := withFiles [fileOf 'a' 2 none] ++ [committing [fileOf 'x' 1 none] [] true]
  valid := by decide
  counted := by decide

theorem appended_rebased : Rebased keepCase keepCase marked deleteOnes.reads (fun _ _ => true)
    [['a']] none atRead.log appended.log := by
  have hvalid : marked.Valid atRead.log := by decide
  have hwrites : Writes keepCase keepCase marked (atRead.log ++ [])
      (committing [fileOf 'x' 1 none] [] true) :=
    ⟨by decide, fun g hg => .inl (by revert g; decide), by decide⟩
  refine .again (.started hvalid)
    (.step (.refl hvalid) (.writes hwrites) ?_ (by decide)) (by decide)
  intro g hg f hf hpath
  revert g f
  decide

theorem rebased_in_order_appended : ∃ rest,
    deleteOnes.run integers twoColumns
        ((plain marked).rows (files atRead.log) ++ others marked appended.log)
        (others marked appended.log) = some rest ∧
      (plain marked).bag (files (appended.log ++ [(plain marked).entryOf appended.log
        ⟨[], [(['a'], {0})], 1, .batches []⟩
        ⟨fun _ => firstHidden, fun _ => none, []⟩ true [] none])) =
      rest + aside marked appended.log := by
  have hstaged : deleteOnes.staged integers twoColumns atRead =
      some (some (asked atRead deleteOnes.acts none)) := rfl
  have hunmarked : Unmarked marked atRead.log := by
    unfold Unmarked
    decide
  have hsound : SkipsSoundly marked (fun _ _ => true) none deleteOnes.reads := by
    intro p hp
    cases hp
  exact rebased_in_order (by decide) hunmarked hsound hstaged (.inl rfl) appended_rebased rfl
    (by decide) (by decide) [] none

/-- The file `a` had its first row deleted; a RESTORE brings it back. -/
def deletedOnce : Log :=
  withFiles [fileOf 'a' 2 none, fileOf 'b' 1 none] ++
    [committing [fileOf 'a' 2 (some firstHidden)] [(['a'], none)] false]

def restoring : Entry := committing [fileOf 'a' 2 none] [(['a'], some ['u', 'v'])] false

def beforeRestore : Contents (plain marked) where
  log := deletedOnce
  valid := by decide
  counted := by decide

def restored : Contents (plain marked) where
  log := deletedOnce ++ [restoring]
  valid := by decide
  counted := by decide

/-- `MERGE INTO t USING s ON t.x = s.x WHEN NOT MATCHED THEN INSERT *`. -/
def insertOnly : Merge (Row (Option Int)) (Row (Option Int)) where
  source := [[some 1], [some 2]]
  on t s := t = s
  matched := []
  notMatched := [⟨none, .write some⟩]
  notMatchedBySource := []

def mergeOnes : Command Integer (Option Int) Int (Row (Option Int)) := .merge insertOnly

def beforeDelete : Contents (plain marked) where
  log := withFiles [fileOf 'b' 1 none]
  valid := by decide
  counted := by decide

def deleted : Contents (plain marked) where
  log := withFiles [fileOf 'b' 1 none] ++ [committing [] [(['b'], none)] false]
  valid := by decide
  counted := by decide

/-- A DELETE misses the row a RESTORE brings back in a file it did not touch, and a
MERGE a row to insert where the row that matched it is deleted. -/
theorem rebase_misses_rows :
    (Restores keepCase keepCase deletedOnce restoring ∧
      rebaseDvCommit keepCase keepCase (fun _ _ => true) deletedOnce restored.log
        (touchedBy (asked beforeRestore deleteOnes.acts none)) none false =
          .ok (some restored.log) ∧
      deleteOnes.staged integers twoColumns beforeRestore =
        some (some (asked beforeRestore deleteOnes.acts none)) ∧
      left restored (asked beforeRestore deleteOnes.acts none) = {[some 1], [some 2]} ∧
      deleteOnes.run integers twoColumns (others marked restored.log)
        (others marked restored.log) = some {[some 2]} ∧ aside marked restored.log = []) ∧
    (Writes keepCase keepCase marked beforeDelete.log (committing [] [(['b'], none)] false) ∧
      rebaseDvCommit keepCase keepCase (fun _ _ => true) beforeDelete.log deleted.log
        (touchedBy (asked beforeDelete mergeOnes.acts (some [[some 2]]))) none false =
          .ok (some deleted.log) ∧
      mergeOnes.staged integers twoColumns beforeDelete =
        some (some (asked beforeDelete mergeOnes.acts (some [[some 2]]))) ∧
      left deleted (asked beforeDelete mergeOnes.acts (some [[some 2]])) = {[some 2]} ∧
      mergeOnes.run integers twoColumns (others marked deleted.log) (others marked deleted.log) =
        some {[some 1], [some 2]} ∧ aside marked deleted.log = []) := by
  have hrestores : Restores keepCase keepCase deletedOnce restoring :=
    ⟨by decide, by decide, 1, by decide⟩
  have hwrites : Writes keepCase keepCase marked beforeDelete.log
      (committing [] [(['b'], none)] false) := by
    refine ⟨?_, ?_, ?_⟩ <;> exact fun g hg => absurd hg not_mem_nil
  exact ⟨⟨hrestores, by decide, rfl, by decide, by decide, by decide⟩,
    hwrites, by decide, rfl, by decide, by decide, by decide⟩

end DeltaSwamp.Conflict
