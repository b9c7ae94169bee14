import DeltaSwamp.Dml.Stage

/-!
# The rows a staged commit leaves

What every live file of the snapshot shows after a staged commit, against
what the request asks for, and when a commit is staged that changes nothing.
-/

namespace DeltaSwamp.Dml

open Commit Assoc Result List

def ScanFile.hidden (f : ScanFile) : Finset Nat := f.vector.getD ∅

def ScanFile.visible (f : ScanFile) : Finset Nat := Finset.range f.count \ f.hidden

theorem ScanFile.hidden_subset (f : ScanFile) : f.hidden ⊆ Finset.range f.count := by
  unfold ScanFile.hidden
  cases hv : f.vector with
  | none => simp
  | some rows => simpa using f.vector_lt rows hv

/-- The rows named for deletion in a file. -/
def Request.requested (r : Request) (path : Text) : Finset Nat :=
  (r.deletions.lookup path).getD ∅

/-- The rows a file is to show after the request. -/
def expected (r : Request) (f : ScanFile) : Finset Nat :=
  if f.path ∈ r.wholeFiles then ∅ else f.visible \ r.requested f.path

def visibleAfter (staged : Option Staged) (f : ScanFile) : Finset Nat :=
  match staged with
  | none => f.visible
  | some st =>
    if f.path ∈ st.removes then ∅
    else match st.updates.lookup f.path with
    | some deleted => Finset.range f.count \ deleted
    | none => f.visible

def deletedRows : Option Staged → Nat
  | none => 0
  | some st => st.deletedRows

/-- The rows the data adds; a stream that fails adds none. -/
def Data.rows : Data → Nat
  | .batches rows => rows.sum
  | .stream (.ok rows) => rows.sum
  | .stream (.error _) => 0

section
variable (s : Snapshot) (r : Request)

/-- A file whose row count the commit comes to know. -/
def countKnown (f : ScanFile) : Bool :=
  f.sized || !s.allowRemove || f.path ∉ r.wholeFiles

/-- What a staged commit does to the rows of the snapshot, as the request asks. -/
structure Faithful (staged : Option Staged) : Prop where
  rows : ∀ f ∈ s.files, visibleAfter staged f = expected r f
  apart : ∀ st, staged = some st → ∀ path ∈ st.removes, path ∉ st.updates.map Prod.fst
  removed : ∀ st, staged = some st → ∀ path ∈ st.removes,
    s.allowRemove = true ∧ ∃ f ∈ s.files, f.path = path ∧ expected r f = ∅
  counted : deletedRows staged = (s.files.map fun f =>
    if countKnown s r f then (f.visible \ visibleAfter staged f).card else 0).sum
  changes : ∀ st, staged = some st → st.removes = [] → st.updates = [] → st.data.rows ≠ 0

/-- What is refused before anything is written is not there. -/
structure WellNamed : Prop where
  whole_live : ∀ path ∈ r.wholeFiles, ∃ f ∈ s.files, f.path = path
  rows_live : ∀ path, r.requested path ≠ ∅ → path ∉ r.wholeFiles → ∃ f ∈ s.files, f.path = path
  in_range : ∀ f ∈ s.files, f.path ∉ r.wholeFiles → r.requested f.path ⊆ Finset.range f.count
  vectors : ∀ path, r.requested path ≠ ∅ → path ∉ r.wholeFiles → s.deletionVectors = true

/-- The rows of files of known count that the request hides. -/
def hiddenRows : Nat :=
  (s.files.map fun f =>
    if countKnown s r f then (f.visible \ expected r f).card else 0).sum

/-- No named file has anything left to lose, as far as its count is known. -/
def NothingLeft : Prop :=
  ∀ f ∈ s.files,
    if f.path ∈ r.wholeFiles then countKnown s r f = true ∧ f.visible = ∅
    else r.requested f.path ⊆ f.hidden

/-- Batches, but not one row in them. -/
def EmptyBatches : Data → Prop
  | .batches rows => rows ≠ [] ∧ rows.sum = 0
  | .stream (.ok rows) => rows ≠ [] ∧ rows.sum = 0
  | .stream (.error _) => False

/-- The fate `commit_dml` settles on for a live file. -/
def fateOf (f : ScanFile) : Option Touched :=
  if f.path ∈ r.wholeFiles then
    if countKnown s r f then
      if f.count = f.hidden.card then none
      else some ⟨Finset.range f.count, f.count - f.hidden.card, s.allowRemove⟩
    else some ⟨∅, 0, true⟩
  else
    let deleted := f.hidden ∪ r.requested f.path
    if deleted.card - f.hidden.card = 0 then none
    else some ⟨deleted, deleted.card - f.hidden.card, s.allowRemove && deleted.card = f.count⟩

/-- What a file shows under a fate. -/
def afterFate (f : ScanFile) : Option Touched → Finset Nat
  | none => f.visible
  | some t => if t.remove then ∅ else Finset.range f.count \ t.deleted

variable {s r}

theorem visible_card (f : ScanFile) : f.visible.card = f.count - f.hidden.card := by
  rw [ScanFile.visible, Finset.card_sdiff_of_subset f.hidden_subset, Finset.card_range]

theorem visible_eq_empty_iff (f : ScanFile) : f.visible = ∅ ↔ f.count = f.hidden.card := by
  have hle := Finset.card_le_card f.hidden_subset
  rw [Finset.card_range] at hle
  rw [← Finset.card_eq_zero, visible_card]
  omega

theorem card_union_sub (a b : Finset Nat) : (a ∪ b).card - a.card = (b \ a).card := by
  have h := Finset.card_sdiff_add_card b a
  rw [Finset.union_comm] at h
  omega

theorem range_sdiff_union (f : ScanFile) (rows : Finset Nat) :
    Finset.range f.count \ (f.hidden ∪ rows) = f.visible \ rows := by
  rw [ScanFile.visible, sdiff_sdiff_left, Finset.sup_eq_union]

variable {f : ScanFile}

theorem visible_sdiff_sdiff {rows : Finset Nat} (hrows : rows ⊆ Finset.range f.count) :
    f.visible \ (f.visible \ rows) = rows \ f.hidden := by
  ext i
  have hi := @hrows i
  simp only [ScanFile.visible, Finset.mem_sdiff] at hi ⊢
  tauto

theorem expected_whole (hw : f.path ∈ r.wholeFiles) : expected r f = ∅ :=
  if_pos hw

theorem expected_rows (hw : f.path ∉ r.wholeFiles) :
    expected r f = f.visible \ r.requested f.path := if_neg hw

theorem fateOf_whole (hw : f.path ∈ r.wholeFiles) :
    fateOf s r f =
      if countKnown s r f then
        if f.visible = ∅ then none
        else some ⟨Finset.range f.count, f.visible.card, s.allowRemove⟩
      else some ⟨∅, 0, true⟩ := by
  simp only [fateOf, if_pos hw, visible_eq_empty_iff, visible_card]

theorem fateOf_rows (hw : f.path ∉ r.wholeFiles) :
    fateOf s r f =
      if r.requested f.path ⊆ f.hidden then none
      else some ⟨f.hidden ∪ r.requested f.path, (r.requested f.path \ f.hidden).card,
        s.allowRemove && (f.hidden ∪ r.requested f.path).card = f.count⟩ := by
  simp only [fateOf, if_neg hw, card_union_sub, Finset.card_eq_zero,
    Finset.sdiff_eq_empty_iff_subset]

theorem fateOf_eq_none_iff (f : ScanFile) :
    fateOf s r f = none ↔
      if f.path ∈ r.wholeFiles then countKnown s r f = true ∧ f.visible = ∅
      else r.requested f.path ⊆ f.hidden := by
  by_cases hw : f.path ∈ r.wholeFiles
  · rw [fateOf_whole hw, if_pos hw]
    split_ifs with hknown hempty <;> simp [*]
  · rw [fateOf_rows hw, if_neg hw]
    split_ifs with hrows <;> simp [hrows]

theorem deleted_eq_range {rows : Finset Nat} (hrows : rows ⊆ Finset.range f.count)
    (hcard : (f.hidden ∪ rows).card = f.count) : f.visible \ rows = ∅ := by
  have hsub : f.hidden ∪ rows ⊆ Finset.range f.count := Finset.union_subset f.hidden_subset hrows
  have hall := Finset.eq_of_subset_of_card_le hsub (by rw [Finset.card_range, hcard])
  rw [← range_sdiff_union, hall, Finset.sdiff_self]

theorem afterFate_fateOf
    (hrange : f.path ∉ r.wholeFiles → r.requested f.path ⊆ Finset.range f.count) :
    afterFate f (fateOf s r f) = expected r f := by
  by_cases hw : f.path ∈ r.wholeFiles
  · rw [expected_whole hw, fateOf_whole hw]
    split_ifs with hknown hempty
    · exact hempty
    · simp [afterFate]
    · rfl
  · rw [expected_rows hw, fateOf_rows hw]
    split_ifs with hrows
    · have hdisjoint : Disjoint f.visible (r.requested f.path) :=
        Finset.disjoint_left.mpr fun i hi hreq => (Finset.mem_sdiff.mp hi).2 (hrows hreq)
      exact (Finset.sdiff_eq_self_of_disjoint hdisjoint).symm
    · simp only [afterFate]
      split_ifs with hremove
      · rw [Bool.and_eq_true, decide_eq_true_eq] at hremove
        exact (deleted_eq_range (hrange hw) hremove.2).symm
      · exact range_sdiff_union f _

theorem fateOf_remove {t : Touched}
    (hrange : f.path ∉ r.wholeFiles → r.requested f.path ⊆ Finset.range f.count)
    (h : fateOf s r f = some t) (hremove : t.remove = true) :
    s.allowRemove = true ∧ expected r f = ∅ := by
  have hafter := afterFate_fateOf (s := s) hrange
  rw [h] at hafter
  simp only [afterFate, hremove, if_true] at hafter
  refine ⟨?_, hafter.symm⟩
  by_cases hw : f.path ∈ r.wholeFiles
  · rw [fateOf_whole hw] at h
    split_ifs at h with hknown
    · cases h
      exact hremove
    · simp only [countKnown, hw, not_true, decide_false, Bool.or_false, Bool.or_eq_true,
        Bool.not_eq_true', not_or, Bool.not_eq_false] at hknown
      exact hknown.2
  · rw [fateOf_rows hw] at h
    split_ifs at h
    cases h
    exact (Bool.and_eq_true _ _ ▸ hremove).1

theorem fateOf_newlyDeleted
    (hrange : f.path ∉ r.wholeFiles → r.requested f.path ⊆ Finset.range f.count) :
    ((fateOf s r f).map Touched.newlyDeleted).getD 0 =
      if countKnown s r f then (f.visible \ expected r f).card else 0 := by
  by_cases hw : f.path ∈ r.wholeFiles
  · rw [expected_whole hw, Finset.sdiff_empty, fateOf_whole hw]
    split_ifs with hknown hempty
    · simp [hempty]
    · rfl
    · rfl
  · have hknown : countKnown s r f = true := by simp [countKnown, hw]
    rw [expected_rows hw, visible_sdiff_sdiff (hrange hw), if_pos hknown, fateOf_rows hw]
    split_ifs with hrows
    · simp [Finset.sdiff_eq_empty_iff_subset.mpr hrows]
    · rfl

end

variable {s : Snapshot} {r : Request}

variable {path : Text} {f : ScanFile}

theorem live_eq_ok_iff : s.live path = .ok f ↔ f ∈ s.files ∧ f.path = path := by
  unfold Snapshot.live
  cases hfind : s.files.find? fun f => f.path = path with
  | none =>
    have hnot := List.find?_eq_none.mp hfind
    simp only [reduceCtorEq, false_iff, not_and]
    intro hf hpath
    exact absurd hpath (by simpa using hnot f hf)
  | some g =>
    have hg := mem_of_find?_eq_some hfind
    have hpath : g.path = path := by simpa using List.find?_some hfind
    simp only [Except.ok.injEq]
    constructor
    · rintro rfl
      exact ⟨hg, hpath⟩
    · rintro ⟨hf, hsame⟩
      exact inj_on_of_nodup_map s.files_nodup hg hf (hpath.trans hsame.symm)

theorem rowIndexes_eq_ok {rows : Option (Finset Nat)} (h : f.rowIndexes = .ok rows) :
    rows = f.vector := by
  unfold ScanFile.rowIndexes at h
  cases he : f.vectorError <;> simp_all

theorem footerNumRows_eq_ok {n : Nat} (h : f.footerNumRows = .ok n) : n = f.count := by
  unfold ScanFile.footerNumRows at h
  cases he : f.footerError <;> simp_all

theorem rowCount_eq_ok {n : Nat} (h : rowCount f = .ok n) : n = f.count := by
  unfold rowCount at h
  split_ifs at h
  · exact (Except.ok.inj h).symm
  · exact footerNumRows_eq_ok h

theorem wholeCount_eq_ok {n : Option Nat} (hw : f.path ∈ r.wholeFiles)
    (h : wholeCount s f = .ok n) :
    n = (if countKnown s r f then some f.count else none) ∧
      (countKnown s r f = false → s.allowRemove = true) := by
  unfold wholeCount at h
  split_ifs at h with hsized hremove
  · cases h
    simp [countKnown, hsized]
  · cases h
    simp [countKnown, hsized, hremove, hw]
  · cases hfooter : f.footerNumRows with
    | error e => simp [hfooter, Except.map] at h
    | ok count =>
      rw [hfooter] at h
      cases h
      simp [countKnown, hremove, footerNumRows_eq_ok hfooter]

variable {o : Option Touched}

theorem touchWhole_eq_ok (hw : f.path ∈ r.wholeFiles) (hf : f ∈ s.files)
    (h : touchWhole s f.path = .ok o) : o = fateOf s r f := by
  obtain ⟨g, hg, h⟩ := bind_eq_ok_iff.mp h
  obtain rfl : f = g := Except.ok.inj ((live_eq_ok_iff.mpr ⟨hf, rfl⟩).symm.trans hg)
  obtain ⟨rows, hrows, h⟩ := bind_eq_ok_iff.mp h
  obtain ⟨n, hn, h⟩ := bind_eq_ok_iff.mp h
  have hhidden : rows.getD ∅ = f.hidden := by rw [rowIndexes_eq_ok hrows, ScanFile.hidden]
  obtain ⟨rfl, hallowed⟩ := wholeCount_eq_ok (r := r) hw hn
  unfold fateOf
  rw [if_pos hw]
  by_cases hknown : countKnown s r f = true
  · simp only [hknown, if_true, hhidden] at h ⊢
    split_ifs at h ⊢ <;> exact (Except.ok.inj h).symm
  · simp only [hknown, hallowed (by simpa using hknown)] at h ⊢
    exact (Except.ok.inj h).symm

variable {rows : Finset Nat}

theorem touchRows_eq_ok (hf : f ∈ s.files) (h : touchRows s f.path rows = .ok o) :
    rows ⊆ Finset.range f.count ∧
      o = if (f.hidden ∪ rows).card - f.hidden.card = 0 then none
        else some ⟨f.hidden ∪ rows, (f.hidden ∪ rows).card - f.hidden.card,
          s.allowRemove && (f.hidden ∪ rows).card = f.count⟩ := by
  obtain ⟨g, hg, h⟩ := bind_eq_ok_iff.mp h
  obtain rfl : f = g := Except.ok.inj ((live_eq_ok_iff.mpr ⟨hf, rfl⟩).symm.trans hg)
  obtain ⟨n, hn, h⟩ := bind_eq_ok_iff.mp h
  obtain rfl := rowCount_eq_ok hn
  by_cases hout : rows.Nonempty ∧ f.count ≤ rows.sup id
  · rw [if_pos hout] at h
    cases h
  · rw [if_neg hout] at h
    obtain ⟨old, hold, h⟩ := bind_eq_ok_iff.mp h
    have hhidden : old.getD ∅ = f.hidden := by rw [rowIndexes_eq_ok hold, ScanFile.hidden]
    simp only [hhidden] at h
    refine ⟨fun i hi => ?_, ?_⟩
    · have hle : i ≤ rows.sup id := Finset.le_sup (f := id) hi
      have hlt := Nat.lt_of_not_le fun hcount => hout ⟨⟨i, hi⟩, hcount⟩
      exact Finset.mem_range.mpr (Nat.lt_of_le_of_lt hle hlt)
    · split_ifs at h ⊢ <;> exact (Except.ok.inj h).symm

theorem mem_rowDeletions :
    (path, rows) ∈ r.rowDeletions ↔
      path ∉ r.wholeFiles ∧ r.requested path = rows ∧ rows ≠ ∅ := by
  simp only [Request.rowDeletions, mem_filter, decide_eq_true_eq, Request.requested]
  constructor
  · rintro ⟨hmem, hne, hw⟩
    rw [(lookup_eq_some_iff r.deletions_nodup path rows).mpr hmem]
    exact ⟨hw, rfl, hne⟩
  · rintro ⟨hw, rfl, hne⟩
    cases hlookup : r.deletions.lookup path with
    | none => simp [hlookup] at hne
    | some rows =>
      rw [hlookup] at hne
      exact ⟨(lookup_eq_some_iff r.deletions_nodup path rows).mp hlookup, hne, hw⟩

theorem mem_rowDeletions_keys :
    path ∈ r.rowDeletions.map Prod.fst ↔ path ∉ r.wholeFiles ∧ r.requested path ≠ ∅ := by
  constructor
  · intro h
    obtain ⟨⟨p, rows⟩, hmem, rfl⟩ := mem_map.mp h
    obtain ⟨hw, rfl, hne⟩ := mem_rowDeletions.mp hmem
    exact ⟨hw, hne⟩
  · rintro ⟨hw, hne⟩
    exact mem_map.mpr ⟨(path, r.requested path), mem_rowDeletions.mpr ⟨hw, rfl, hne⟩, rfl⟩

/-- Every named path with what was settled on it. -/
structure Settled (s : Snapshot) (r : Request) (touched : List (Text × Touched)) : Prop where
  nodup : (touched.map Prod.fst).Nodup
  live : ∀ path ∈ touched.map Prod.fst, path ∈ s.files.map ScanFile.path
  fate : ∀ f ∈ s.files, touched.lookup f.path = fateOf s r f
  whole_live : ∀ path ∈ r.wholeFiles, ∃ f ∈ s.files, f.path = path
  rows_live : ∀ path, r.requested path ≠ ∅ → path ∉ r.wholeFiles → ∃ f ∈ s.files, f.path = path
  in_range : ∀ f ∈ s.files, f.path ∉ r.wholeFiles → r.requested f.path ⊆ Finset.range f.count

theorem live_of_touchWhole (h : touchWhole s path = .ok o) : ∃ f ∈ s.files, f.path = path := by
  obtain ⟨f, hf, _⟩ := bind_eq_ok_iff.mp h
  exact ⟨f, live_eq_ok_iff.mp hf⟩

theorem live_of_touchRows (h : touchRows s path rows = .ok o) : ∃ f ∈ s.files, f.path = path := by
  obtain ⟨f, hf, _⟩ := bind_eq_ok_iff.mp h
  exact ⟨f, live_eq_ok_iff.mp hf⟩

/-- Every file a request touches is settled, each once. -/
theorem settled_of_touchedFiles {touched : List (Text × Touched)}
    (h : touchedFiles s r = .ok touched) : Settled s r touched := by
  obtain ⟨whole, hwhole, h⟩ := bind_eq_ok_iff.mp h
  obtain ⟨rows, hrows, h⟩ := bind_eq_ok_iff.mp h
  obtain rfl := pure_eq_ok_iff.mp h
  have hwholeKeys : whole.map Prod.fst = r.wholeFiles := by
    refine (map_eq_of_mapM_ok (q := id) (fun path y hy => ?_) hwhole).trans (map_id _)
    obtain ⟨o, _, hy⟩ := bind_eq_ok_iff.mp hy
    rw [← pure_eq_ok_iff.mp hy]
    rfl
  have hrowsKeys : rows.map Prod.fst = r.rowDeletions.map Prod.fst := by
    refine map_eq_of_mapM_ok (fun d y hy => ?_) hrows
    obtain ⟨o, _, hy⟩ := bind_eq_ok_iff.mp hy
    rw [← pure_eq_ok_iff.mp hy]
  have hkeys : (whole ++ rows).map Prod.fst = r.wholeFiles ++ r.rowDeletions.map Prod.fst := by
    rw [map_append, hwholeKeys, hrowsKeys]
  have hnodup : ((whole ++ rows).map Prod.fst).Nodup := by
    rw [hkeys, nodup_append]
    refine ⟨r.wholeFiles_nodup, r.deletions_nodup.sublist (filter_sublist.map _), ?_⟩
    rintro path hw _ hd rfl
    exact (mem_rowDeletions_keys.mp hd).1 hw
  have hmemWhole : ∀ path o, (path, o) ∈ whole ↔
      path ∈ r.wholeFiles ∧ touchWhole s path = .ok o := by
    intro path o
    simp only [mem_of_mapM_ok hwhole, bind_eq_ok_iff, pure_eq_ok_iff, Prod.mk.injEq]
    constructor
    · rintro ⟨_, hw, _, ho, rfl, rfl⟩
      exact ⟨hw, ho⟩
    · rintro ⟨hw, ho⟩
      exact ⟨path, hw, o, ho, rfl, rfl⟩
  have hmemRows : ∀ path o, (path, o) ∈ rows ↔
      ∃ named, (path, named) ∈ r.rowDeletions ∧ touchRows s path named = .ok o := by
    intro path o
    simp only [mem_of_mapM_ok hrows, bind_eq_ok_iff, pure_eq_ok_iff, Prod.mk.injEq, Prod.exists]
    constructor
    · rintro ⟨_, named, hd, _, ho, rfl, rfl⟩
      exact ⟨named, hd, ho⟩
    · rintro ⟨named, hd, ho⟩
      exact ⟨path, named, hd, o, ho, rfl, rfl⟩
  have hwholeLive : ∀ path ∈ r.wholeFiles, ∃ f ∈ s.files, f.path = path := by
    intro path hw
    obtain ⟨y, hy⟩ := exists_ok_of_mapM_ok hwhole path hw
    obtain ⟨o, ho, _⟩ := bind_eq_ok_iff.mp hy
    exact live_of_touchWhole ho
  have hrowsOk : ∀ path named, (path, named) ∈ r.rowDeletions →
      ∃ o, (path, o) ∈ rows ∧ touchRows s path named = .ok o := by
    intro path named hd
    obtain ⟨y, hy⟩ := exists_ok_of_mapM_ok hrows _ hd
    obtain ⟨o, ho, _⟩ := bind_eq_ok_iff.mp hy
    exact ⟨o, (hmemRows path o).mpr ⟨named, hd, ho⟩, ho⟩
  have hrowsLive : ∀ path, r.requested path ≠ ∅ → path ∉ r.wholeFiles →
      ∃ f ∈ s.files, f.path = path := by
    intro path hne hw
    obtain ⟨o, _, ho⟩ := hrowsOk path _ (mem_rowDeletions.mpr ⟨hw, rfl, hne⟩)
    exact live_of_touchRows ho
  refine ⟨hnodup.sublist (keys_present_sublist _), fun path hpath => ?_, fun f hf => ?_,
    hwholeLive, hrowsLive, fun f hf hw => ?_⟩
  · have hnamed := (keys_present_sublist _).subset hpath
    rw [hkeys, mem_append] at hnamed
    have hlive : ∃ f ∈ s.files, f.path = path := by
      rcases hnamed with hw | hd
      · exact hwholeLive path hw
      · obtain ⟨hw, hne⟩ := mem_rowDeletions_keys.mp hd
        exact hrowsLive path hne hw
    exact mem_map.mpr hlive
  · by_cases hw : f.path ∈ r.wholeFiles
    · obtain ⟨y, hy⟩ := exists_ok_of_mapM_ok hwhole _ hw
      obtain ⟨o, ho, _⟩ := bind_eq_ok_iff.mp hy
      rw [lookup_present hnodup (mem_append_left _ ((hmemWhole _ o).mpr ⟨hw, ho⟩))]
      exact touchWhole_eq_ok hw hf ho
    · by_cases hne : r.requested f.path = ∅
      · have hnone : fateOf s r f = none := by
          rw [fateOf_eq_none_iff, if_neg hw, hne]
          exact Finset.empty_subset _
        rw [hnone, lookup_present_none]
        rw [hkeys, mem_append, not_or]
        exact ⟨hw, fun hd => (mem_rowDeletions_keys.mp hd).2 hne⟩
      · obtain ⟨o, hmem, ho⟩ := hrowsOk f.path _ (mem_rowDeletions.mpr ⟨hw, rfl, hne⟩)
        rw [lookup_present hnodup (mem_append_right _ hmem)]
        unfold fateOf
        simp only [if_neg hw]
        exact (touchRows_eq_ok hf ho).2
  · by_cases hne : r.requested f.path = ∅
    · rw [hne]
      exact Finset.empty_subset _
    · obtain ⟨o, _, ho⟩ := hrowsOk f.path _ (mem_rowDeletions.mpr ⟨hw, rfl, hne⟩)
      exact (touchRows_eq_ok hf ho).1

end DeltaSwamp.Dml
