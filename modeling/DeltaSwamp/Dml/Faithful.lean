import DeltaSwamp.Dml.Rows

/-!
# Staged commits are faithful to their request

Every touched file meets its fate in the two masks over the scan, so a staged
commit leaves the rows the request asks for and reports them. It is made for
nothing when the data has batches but no rows and no file has rows to lose.
-/

namespace DeltaSwamp.Dml

open Commit Assoc Result

section
variable {s : Snapshot} {r : Request} {touched : List (Text × Touched)}

theorem mem_maskedRemoves {path : Text} :
    path ∈ maskedRemoves s touched ↔
      ∃ f ∈ s.files, f.path = path ∧ path ∈ removals touched := by
  simp only [maskedRemoves, Snapshot.files, List.mem_flatMap, List.mem_map, List.mem_filter,
    decide_eq_true_eq]
  constructor
  · rintro ⟨batch, hbatch, f, ⟨hf, hremove⟩, rfl⟩
    exact ⟨f, ⟨batch, hbatch, hf⟩, rfl, hremove⟩
  · rintro ⟨f, ⟨batch, hbatch, hf⟩, rfl, hremove⟩
    exact ⟨batch, hbatch, f, ⟨hf, hremove⟩, rfl⟩

theorem maskedUpdates_eq :
    maskedUpdates s touched =
      present (s.files.map fun f => (f.path, (descriptors touched).lookup f.path)) := by
  simp only [maskedUpdates, Snapshot.files, present, List.filterMap_map, List.filterMap_flatMap]
  rfl

namespace Settled

theorem mem_removals (h : Settled s r touched) {path : Text} :
    path ∈ removals touched ↔ ∃ t, touched.lookup path = some t ∧ t.remove = true := by
  simp only [removals, List.mem_map, List.mem_filter]
  constructor
  · rintro ⟨⟨p, t⟩, ⟨hmem, hremove⟩, rfl⟩
    exact ⟨t, (lookup_eq_some_iff h.nodup p t).mpr hmem, hremove⟩
  · rintro ⟨t, hlookup, hremove⟩
    exact ⟨(path, t), ⟨(lookup_eq_some_iff h.nodup path t).mp hlookup, hremove⟩, rfl⟩

theorem descriptors_lookup (h : Settled s r touched) (path : Text) (deleted : Finset Nat) :
    (descriptors touched).lookup path = some deleted ↔
      ∃ t, touched.lookup path = some t ∧ t.remove = false ∧ t.deleted = deleted := by
  have hkeys : ((descriptors touched).map Prod.fst).Nodup := by
    rw [descriptors, List.map_map]
    exact h.nodup.sublist (List.filter_sublist.map _)
  rw [lookup_eq_some_iff hkeys]
  simp only [descriptors, List.mem_map, List.mem_filter, Bool.not_eq_true', Prod.mk.injEq]
  constructor
  · rintro ⟨⟨p, t⟩, ⟨hmem, hkeep⟩, rfl, rfl⟩
    exact ⟨t, (lookup_eq_some_iff h.nodup p t).mpr hmem, hkeep, rfl⟩
  · rintro ⟨t, hlookup, hkeep, rfl⟩
    exact ⟨(path, t), ⟨(lookup_eq_some_iff h.nodup path t).mp hlookup, hkeep⟩, rfl, rfl⟩

variable {f : ScanFile}

theorem mem_removes (h : Settled s r touched) (hf : f ∈ s.files) :
    f.path ∈ maskedRemoves s touched ↔ ∃ t, fateOf s r f = some t ∧ t.remove = true := by
  rw [mem_maskedRemoves, h.mem_removals, h.fate f hf]
  constructor
  · rintro ⟨_, _, _, hfate⟩
    exact hfate
  · exact fun hfate => ⟨f, hf, rfl, hfate⟩

theorem updates_lookup (h : Settled s r touched) (hf : f ∈ s.files) :
    (maskedUpdates s touched).lookup f.path =
      ((fateOf s r f).filter fun t => !t.remove).map Touched.deleted := by
  have hnodup : ((s.files.map fun f =>
      (f.path, (descriptors touched).lookup f.path)).map Prod.fst).Nodup := by
    rw [List.map_map]
    exact s.files_nodup
  rw [maskedUpdates_eq, lookup_present hnodup (List.mem_map.mpr ⟨f, hf, rfl⟩)]
  ext deleted
  rw [h.descriptors_lookup, h.fate f hf]
  simp only [Option.map_eq_some_iff, Option.filter_eq_some_iff, Bool.not_eq_true', and_assoc]

theorem visibleAfter_eq (h : Settled s r touched) (hf : f ∈ s.files) (n : Nat) (data : Data) :
    visibleAfter (some ⟨maskedRemoves s touched, maskedUpdates s touched, n, data⟩) f =
      expected r f := by
  rw [← afterFate_fateOf (h.in_range f hf)]
  simp only [visibleAfter, h.updates_lookup hf, h.mem_removes hf]
  cases fateOf s r f with
  | none => simp [afterFate]
  | some t => cases hremove : t.remove <;> simp [afterFate, hremove, Option.filter]

theorem mem_updates (h : Settled s r touched) {path : Text}
    (hpath : path ∈ (maskedUpdates s touched).map Prod.fst) :
    ∃ t, touched.lookup path = some t ∧ t.remove = false := by
  rw [maskedUpdates_eq] at hpath
  obtain ⟨⟨p, deleted⟩, hmem, rfl⟩ := List.mem_map.mp hpath
  obtain ⟨f, _, heq⟩ := List.mem_map.mp (mem_present.mp hmem)
  obtain ⟨rfl, hlookup⟩ := Prod.mk.inj heq
  obtain ⟨t, ht, hkeep, _⟩ := (h.descriptors_lookup _ _).mp hlookup
  exact ⟨t, ht, hkeep⟩

theorem touched_eq_nil_iff (h : Settled s r touched) :
    touched = [] ↔ maskedRemoves s touched = [] ∧ maskedUpdates s touched = [] := by
  constructor
  · rintro rfl
    constructor
    · simp [maskedRemoves, removals]
    · simp [maskedUpdates, descriptors]
  · rintro ⟨hremoves, hupdates⟩
    rw [List.eq_nil_iff_forall_not_mem]
    rintro ⟨path, t⟩ hmem
    obtain ⟨f, hf, rfl⟩ := List.mem_map.mp (h.live path (List.mem_map.mpr ⟨_, hmem, rfl⟩))
    have hfate := (h.fate f hf).symm.trans ((lookup_eq_some_iff h.nodup f.path t).mpr hmem)
    cases hremove : t.remove with
    | true =>
      have := (h.mem_removes hf).mpr ⟨t, hfate, hremove⟩
      simp [hremoves] at this
    | false =>
      have := h.updates_lookup hf
      simp [hupdates, hfate, Option.filter, hremove] at this

theorem nothingLeft_iff (h : Settled s r touched) : touched = [] ↔ NothingLeft s r := by
  constructor
  · rintro rfl f hf
    exact (fateOf_eq_none_iff f).mp (h.fate f hf).symm
  · intro hnone
    rw [List.eq_nil_iff_forall_not_mem]
    rintro ⟨path, t⟩ hmem
    obtain ⟨f, hf, rfl⟩ := List.mem_map.mp (h.live path (List.mem_map.mpr ⟨_, hmem, rfl⟩))
    have hfate := (h.fate f hf).symm.trans ((lookup_eq_some_iff h.nodup f.path t).mpr hmem)
    rw [(fateOf_eq_none_iff f).mpr (hnone f hf)] at hfate
    cases hfate

theorem sum_newlyDeleted (h : Settled s r touched) :
    (touched.map fun t => t.2.newlyDeleted).sum = hiddenRows s r := by
  rw [← sum_lookup h.nodup s.files_nodup h.live Touched.newlyDeleted, List.map_map, hiddenRows]
  congr 1
  refine List.map_congr_left fun f hf => ?_
  simp only [Function.comp_apply, h.fate f hf]
  exact fateOf_newlyDeleted (h.in_range f hf)

end Settled

/-- With no file touched the data is at hand, and is empty batches just when
the request's is. -/
theorem dataToWrite_nil {data : Data} (h : dataToWrite r [] = .ok data) :
    (data.isEmpty = false ∧ data.rows = 0) ↔ EmptyBatches r.data := by
  unfold dataToWrite at h
  cases hdata : r.data with
  | batches rows =>
    simp only [hdata] at h
    cases h
    simp [Data.isEmpty, Data.rows, EmptyBatches]
  | stream rows =>
    simp only [hdata, List.isEmpty_nil, if_true] at h
    split_ifs at h
    cases rows with
    | error e => simp [lift, bind, Except.bind] at h
    | ok rows =>
      simp only [lift] at h
      cases h
      simp [Data.isEmpty, Data.rows, EmptyBatches]

/-- A staging that is not refused settled every file, and made nothing of it
only when there was nothing to do. -/
theorem stage_eq_ok {staged : Option Staged} (h : stage s r = .ok staged) :
    (r.rowDeletions ≠ [] → s.deletionVectors = true) ∧
    ∃ touched data, Settled s r touched ∧ dataToWrite r touched = .ok data ∧
      ((staged = none ∧ touched = [] ∧ data.isEmpty = true) ∨
        (staged = some ⟨maskedRemoves s touched, maskedUpdates s touched,
            hiddenRows s r % 2 ^ 64, data⟩ ∧ ¬ (touched = [] ∧ data.isEmpty = true))) := by
  unfold stage at h
  split_ifs at h with hvectors
  refine ⟨fun hne => by simpa [hne] using hvectors, ?_⟩
  obtain ⟨touched, htouched, h⟩ := bind_eq_ok_iff.mp h
  obtain ⟨data, hdata, h⟩ := bind_eq_ok_iff.mp h
  have hsettled := settled_of_touchedFiles htouched
  refine ⟨touched, data, hsettled, hdata, ?_⟩
  simp only [List.isEmpty_iff] at h
  by_cases hidle : touched = [] ∧ data.isEmpty = true
  · rw [if_pos hidle] at h
    exact .inl ⟨(Except.ok.inj h).symm, hidle⟩
  · rw [if_neg hidle] at h
    obtain ⟨_, _, h⟩ := bind_eq_ok_iff.mp h
    split_ifs at h
    rw [hsettled.sum_newlyDeleted] at h
    exact .inr ⟨(Except.ok.inj h).symm, hidle⟩

theorem Settled.wellNamed (h : Settled s r touched)
    (hvectors : r.rowDeletions ≠ [] → s.deletionVectors = true) : WellNamed s r := by
  refine ⟨h.whole_live, h.rows_live, h.in_range, fun path hne hw => hvectors ?_⟩
  exact List.ne_nil_of_mem (mem_rowDeletions.mpr ⟨hw, rfl, hne⟩)

theorem sum_visibleAfter {staged : Option Staged}
    (h : ∀ f ∈ s.files, visibleAfter staged f = expected r f) :
    (s.files.map fun f =>
      if countKnown s r f then (f.visible \ visibleAfter staged f).card else 0).sum =
        hiddenRows s r := by
  rw [hiddenRows]
  congr 1
  exact List.map_congr_left fun f hf => by rw [h f hf]

theorem faithful_none (h : Settled s r touched) (hnil : touched = []) :
    Faithful s r none := by
  have hnone : ∀ f ∈ s.files, f.visible = expected r f := by
    intro f hf
    have hfate := h.fate f hf
    rw [hnil, List.lookup_nil] at hfate
    have hafter := afterFate_fateOf (s := s) (h.in_range f hf)
    rwa [← hfate] at hafter
  have hzero : deletedRows none = (s.files.map fun f =>
      if countKnown s r f then (f.visible \ visibleAfter none f).card else 0).sum := by
    simp [deletedRows, visibleAfter]
  exact ⟨hnone, by simp, by simp, hzero, by simp⟩

theorem faithful_some_iff (h : Settled s r touched) {data : Data}
    (hdata : dataToWrite r touched = .ok data) (hbusy : ¬ (touched = [] ∧ data.isEmpty = true)) :
    Faithful s r (some ⟨maskedRemoves s touched, maskedUpdates s touched,
        hiddenRows s r % 2 ^ 64, data⟩) ↔
      hiddenRows s r < 2 ^ 64 ∧ ¬ (NothingLeft s r ∧ EmptyBatches r.data) := by
  have hrows := fun f hf => h.visibleAfter_eq (f := f) hf (hiddenRows s r % 2 ^ 64) data
  have hsum := sum_visibleAfter hrows
  constructor
  · intro hfaithful
    have hcounted := hfaithful.counted
    rw [hsum] at hcounted
    refine ⟨?_, ?_⟩
    · rw [← hcounted]
      exact Nat.mod_lt _ (by decide)
    · rintro ⟨hleft, hempty⟩
      have hnil := h.nothingLeft_iff.mpr hleft
      subst hnil
      obtain ⟨hremoves, hupdates⟩ := h.touched_eq_nil_iff.mp rfl
      exact hfaithful.changes _ rfl hremoves hupdates ((dataToWrite_nil hdata).mpr hempty).2
  · rintro ⟨hfit, hwork⟩
    refine ⟨hrows, ?_, ?_, ?_, ?_⟩
    · rintro st hst path hpath hupdate
      cases hst
      obtain ⟨_, _, _, hremoval⟩ := mem_maskedRemoves.mp hpath
      obtain ⟨t, ht, hremove⟩ := h.mem_removals.mp hremoval
      obtain ⟨t', ht', hkeep⟩ := h.mem_updates hupdate
      rw [ht] at ht'
      cases ht'
      rw [hremove] at hkeep
      cases hkeep
    · rintro st hst path hpath
      cases hst
      obtain ⟨f, hf, rfl, _⟩ := mem_maskedRemoves.mp hpath
      obtain ⟨t, hfate, hremove⟩ := (h.mem_removes hf).mp hpath
      obtain ⟨hallowed, hempty⟩ := fateOf_remove (h.in_range f hf) hfate hremove
      exact ⟨hallowed, f, hf, rfl, hempty⟩
    · rw [hsum]
      exact Nat.mod_eq_of_lt hfit
    · rintro st hst hremoves hupdates hzero
      cases hst
      have hnil := h.touched_eq_nil_iff.mpr ⟨hremoves, hupdates⟩
      subst hnil
      have hnonempty : data.isEmpty = false := by simpa using hbusy
      exact hwork ⟨h.nothingLeft_iff.mp rfl, (dataToWrite_nil hdata).mp ⟨hnonempty, hzero⟩⟩

/-- A request that is not refused names live files and rows in range, and the
commit staged for it is faithful unless it hides more rows than a `u64` counts
or has nothing to delete and batches without rows. -/
theorem stage_faithful_iff {staged : Option Staged} (h : stage s r = .ok staged) :
    WellNamed s r ∧
      (Faithful s r staged ↔
        hiddenRows s r < 2 ^ 64 ∧ ¬ (NothingLeft s r ∧ EmptyBatches r.data)) := by
  obtain ⟨hvectors, touched, data, hsettled, hdata, ⟨rfl, rfl, hempty⟩ | ⟨rfl, hbusy⟩⟩ :=
    stage_eq_ok h
  · refine ⟨hsettled.wellNamed hvectors, iff_of_true (faithful_none hsettled rfl) ⟨?_, ?_⟩⟩
    · have hsum := hsettled.sum_newlyDeleted
      rw [← hsum]
      decide
    · rintro ⟨_, hbatches⟩
      have := ((dataToWrite_nil hdata).mpr hbatches).1
      rw [hempty] at this
      cases this
  · exact ⟨hsettled.wellNamed hvectors, faithful_some_iff hsettled hdata hbusy⟩

def oneFile : ScanFile where
  path := "part-0.parquet".toList
  count := 3
  sized := true
  vector := none
  vectorError := none
  footerError := none
  vector_lt := by simp

def oneFileTable : Snapshot where
  version := 7
  batches := [⟨[some oneFile], []⟩]
  deletionVectors := true
  rowTracking := false
  rowTrackingSuspended := false
  icebergCompatV3 := false
  opened := .ok ()
  files_nodup := by decide

/-- Row 0 of the file deleted and two rows written. -/
def updateRequest : Request where
  deletions := [("part-0.parquet".toList, {0})]
  wholeFiles := []
  data := .batches [2]
  dataChange := true
  deletions_nodup := by decide
  wholeFiles_nodup := by decide

theorem stage_faithful_iff_update :
    stage oneFileTable updateRequest =
        .ok (some ⟨[], [("part-0.parquet".toList, {0})], 1, .batches [2]⟩) ∧
      WellNamed oneFileTable updateRequest ∧
      (Faithful oneFileTable updateRequest
          (some ⟨[], [("part-0.parquet".toList, {0})], 1, .batches [2]⟩) ↔
        hiddenRows oneFileTable updateRequest < 2 ^ 64 ∧
          ¬ (NothingLeft oneFileTable updateRequest ∧ EmptyBatches updateRequest.data)) :=
  ⟨rfl, stage_faithful_iff rfl⟩

/-- Nothing deleted, and one batch of no rows. -/
def idleRequest : Request where
  deletions := []
  wholeFiles := []
  data := .batches [0]
  dataChange := true
  deletions_nodup := by decide
  wholeFiles_nodup := by decide

/-- A request that deletes nothing and adds no row makes a commit. -/
theorem emptyBatch_commits :
    ¬ ∀ s r staged, stage s r = .ok staged → Faithful s r staged := by
  intro h
  have hstage : stage oneFileTable idleRequest = .ok (some ⟨[], [], 0, .batches [0]⟩) := rfl
  exact (h _ _ _ hstage).changes _ rfl rfl rfl rfl

end

/-- The vectors and footers of the files can be read, and the commit opened. -/
structure Readable (s : Snapshot) : Prop where
  vectors : ∀ f ∈ s.files, f.vectorError = none
  footers : ∀ f ∈ s.files, f.footerError = none
  opened : s.opened = .ok ()

/-- The files named are live, the rows rows of theirs. -/
structure Named (s : Snapshot) (r : Request) : Prop where
  whole_live : ∀ path ∈ r.wholeFiles, ∃ f ∈ s.files, f.path = path
  rows_live : ∀ path, r.requested path ≠ ∅ → path ∉ r.wholeFiles → ∃ f ∈ s.files, f.path = path
  in_range : ∀ f ∈ s.files, f.path ∉ r.wholeFiles → r.requested f.path ⊆ Finset.range f.count

variable {s : Snapshot} {r : Request}

theorem Readable.touchWhole (h : Readable s) {f : ScanFile} (hf : f ∈ s.files) :
    ∃ o, touchWhole s f.path = .ok o := by
  have hlive := live_eq_ok_iff.mpr ⟨hf, rfl⟩
  have hrows : f.rowIndexes = .ok f.vector := by rw [ScanFile.rowIndexes, h.vectors f hf]
  have hfooter : f.footerNumRows = .ok f.count := by rw [ScanFile.footerNumRows, h.footers f hf]
  have hcount : ∃ n, wholeCount s f = .ok n ∧ (n = none → s.allowRemove = true) := by
    unfold wholeCount
    split_ifs with hsized hallow
    · exact ⟨_, rfl, nofun⟩
    · exact ⟨_, rfl, fun _ => hallow⟩
    · exact ⟨some f.count, by rw [hfooter]; rfl, nofun⟩
  obtain ⟨n, hn, hallow⟩ := hcount
  unfold Dml.touchWhole
  rw [hlive, ok_bind, hrows, ok_bind, hn, ok_bind]
  cases n with
  | none => exact ⟨_, if_pos (hallow rfl)⟩
  | some n =>
    dsimp only
    split_ifs
    · exact ⟨none, rfl⟩
    · exact ⟨_, rfl⟩

theorem Readable.touchRows (h : Readable s) {f : ScanFile} (hf : f ∈ s.files) {rows : Finset Nat}
    (hrows : rows ⊆ Finset.range f.count) : ∃ o, touchRows s f.path rows = .ok o := by
  have hlive := live_eq_ok_iff.mpr ⟨hf, rfl⟩
  have hindexes : f.rowIndexes = .ok f.vector := by rw [ScanFile.rowIndexes, h.vectors f hf]
  have hcount : rowCount f = .ok f.count := by
    unfold rowCount
    split_ifs
    · rfl
    · rw [ScanFile.footerNumRows, h.footers f hf]
  have hinside : ¬ (rows.Nonempty ∧ f.count ≤ rows.sup id) := by
    rintro ⟨hne, hle⟩
    obtain ⟨i, hi, hsup⟩ := Finset.exists_mem_eq_sup rows hne id
    have hlt := Finset.mem_range.mp (hrows hi)
    rw [hsup] at hle
    exact absurd hlt (Nat.not_lt.mpr hle)
  unfold Dml.touchRows
  rw [hlive, ok_bind, hcount, ok_bind, if_neg hinside, hindexes, ok_bind]
  dsimp only
  split_ifs
  · exact ⟨none, rfl⟩
  · exact ⟨_, rfl⟩

theorem Readable.touchedFiles (h : Readable s) (hnamed : Named s r) :
    ∃ touched, touchedFiles s r = .ok touched := by
  obtain ⟨whole, hwhole⟩ : ∃ whole, (r.wholeFiles.mapM fun path => do
      return (path, ← Dml.touchWhole s path)) = .ok whole := by
    apply exists_mapM_ok
    intro path hpath
    obtain ⟨f, hf, rfl⟩ := hnamed.whole_live path hpath
    obtain ⟨o, ho⟩ := h.touchWhole hf
    exact ⟨(f.path, o), bind_eq_ok_iff.mpr ⟨o, ho, rfl⟩⟩
  obtain ⟨rows, hrows⟩ : ∃ rows, (r.rowDeletions.mapM fun d => do
      return (d.1, ← Dml.touchRows s d.1 d.2)) = .ok rows := by
    apply exists_mapM_ok
    rintro ⟨path, deleted⟩ hd
    obtain ⟨hw, rfl, hne⟩ := mem_rowDeletions.mp hd
    obtain ⟨f, hf, rfl⟩ := hnamed.rows_live path hne hw
    obtain ⟨o, ho⟩ := h.touchRows hf (hnamed.in_range f hf hw)
    exact ⟨(f.path, o), bind_eq_ok_iff.mpr ⟨o, ho, rfl⟩⟩
  exact ⟨_, bind_eq_ok_iff.mpr ⟨whole, hwhole, bind_eq_ok_iff.mpr ⟨rows, hrows, rfl⟩⟩⟩

theorem Settled.descriptors_eq_nil_iff {touched : List (Text × Touched)}
    (h : Settled s r touched) (hrows : r.rowDeletions = []) :
    descriptors touched = [] ↔
      ∀ f ∈ s.files, f.path ∈ r.wholeFiles → s.allowRemove = true ∨ f.visible = ∅ := by
  have hnone : descriptors touched = [] ↔ ∀ f ∈ s.files, ∀ t ∈ fateOf s r f, t.remove = true := by
    rw [descriptors, List.map_eq_nil_iff, List.filter_eq_nil_iff]
    constructor
    · intro hall f hf t ht
      rw [← h.fate f hf] at ht
      simpa using hall _ ((lookup_eq_some_iff h.nodup f.path t).mp ht)
    · rintro hall ⟨path, t⟩ ht
      obtain ⟨f, hf, rfl⟩ := List.mem_map.mp (h.live path (List.mem_map_of_mem ht))
      have hfate := (lookup_eq_some_iff h.nodup f.path t).mpr ht
      rw [h.fate f hf] at hfate
      simpa using hall f hf t hfate
  rw [hnone]
  refine forall₂_congr fun f hf => ?_
  by_cases hw : f.path ∈ r.wholeFiles
  · rw [fateOf_whole hw]
    by_cases hknown : countKnown s r f = true
    · rw [if_pos hknown]
      by_cases hempty : f.count = f.hidden.card
      · simp [(visible_eq_empty_iff f).mpr hempty]
      · have hvisible : f.visible ≠ ∅ := fun hv => hempty ((visible_eq_empty_iff f).mp hv)
        simp [hvisible, hw]
    · have hallow : s.allowRemove = true := by
        by_contra hno
        exact hknown (by simp [countKnown, hno])
      simp [hknown, hallow]
  · have hrequested : r.requested f.path = ∅ := by
      by_contra hne
      have hmem := mem_rowDeletions.mpr ⟨hw, rfl, hne⟩
      rw [hrows] at hmem
      cases hmem
    have hfate : fateOf s r f = none := by
      rw [fateOf_eq_none_iff, if_neg hw, hrequested]
      exact Finset.empty_subset _
    simp [hfate, hw]

/-- A request is staged if deletion vectors are enabled, or if all it names are
files that can be removed. -/
theorem stage_isOk_iff (h : Readable s) (hnamed : Named s r) {batches : List Nat}
    (hdata : r.data = .batches batches) :
    (∃ staged, stage s r = .ok staged) ↔ s.deletionVectors = true ∨ (r.rowDeletions = [] ∧
      ∀ f ∈ s.files, f.path ∈ r.wholeFiles → s.allowRemove = true ∨ f.visible = ∅) := by
  obtain ⟨touched, htouched⟩ := h.touchedFiles hnamed
  have hsettled := settled_of_touchedFiles htouched
  have hwrite : dataToWrite r touched = .ok (.batches batches) := by rw [dataToWrite, hdata]
  have hopened : lift s.opened = .ok () := by rw [h.opened, lift]
  unfold stage
  by_cases hvectors : s.deletionVectors = true
  · simp only [hvectors, Bool.true_eq_false, and_false, if_false, true_or, iff_true]
    rw [htouched, ok_bind, hwrite, ok_bind, hopened, ok_bind]
    split_ifs
    · exact ⟨none, rfl⟩
    · exact ⟨_, rfl⟩
  · rw [Bool.not_eq_true] at hvectors
    by_cases hrows : r.rowDeletions = []
    · rw [← hsettled.descriptors_eq_nil_iff hrows]
      simp only [hvectors, hrows, ne_eq, not_true_eq_false, if_false, Bool.false_eq_true,
        true_and, false_or, and_true]
      rw [htouched, ok_bind, hwrite, ok_bind, hopened, ok_bind]
      by_cases hnil : descriptors touched = []
      · split_ifs
        · simp [hnil]
        · simp [hnil]
      · have hbusy : ¬ (touched.isEmpty = true ∧ Data.isEmpty (.batches batches) = true) := by
          rintro ⟨hempty, -⟩
          rw [List.isEmpty_iff] at hempty
          exact hnil (by rw [hempty]; rfl)
        rw [if_neg hbusy]
        simp [hnil]
    · simp [hvectors, hrows]

end DeltaSwamp.Dml
