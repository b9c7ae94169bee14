import DeltaSwamp.Dml.Faithful
import DeltaSwamp.Table.Log

/-!
# Row-level commits in the log

`commit_dml` on a snapshot of the log: the request it is given is staged as
`Dml.stage` says, and what was staged becomes the actions of one commit.
-/

namespace DeltaSwamp.Table

open Metadata List

/-- A property that is `true`, in any case. -/
def flag (log : Log) (key : String) : Bool :=
  ((tableProperties log).get key).any fun value =>
    value.toList.map Char.toLower = ['t', 'r', 'u', 'e']

def supportsFeature (log : Log) (name : String) : Bool :=
  (protocol log).any fun p => name ∈ supportedFeatures p

namespace Storage

variable {ρ : Type} (st : Storage ρ)

/-- A file of the scan; a vector names rows of its file only. -/
def scanFile (f : AddFile) : Dml.ScanFile where
  path := f.path
  count := st.count f.path
  sized := f.numRecords.isSome
  vector := f.deletionVector.map fun v => (st.hidden v).filter fun i => i < st.count f.path
  vectorError := none
  footerError := none
  vector_lt rows hrows i hi := by
    obtain ⟨v, -, rfl⟩ := Option.map_eq_some_iff.mp hrows
    exact Finset.mem_range.mpr (Finset.mem_filter.mp hi).2

theorem selected_all (fs : List Dml.ScanFile) :
    (⟨fs.map some, []⟩ : Dml.ScanBatch).selected = fs := by
  have hall : ((fs.map some).zipIdx.filter fun row => (([] : List Bool)[row.2]?).getD true) =
      (fs.map some).zipIdx := filter_eq_self.mpr fun _ _ => rfl
  have hid : (fs.map some).zipIdx.filterMap Prod.fst =
      ((fs.map some).zipIdx.map Prod.fst).filterMap id := by
    rw [filterMap_map]
    rfl
  rw [Dml.ScanBatch.selected, hall, hid, zipIdx_map_fst, filterMap_map]
  exact filterMap_some

/-- The scan of a snapshot that lists no path twice. -/
def scan (log : Log) (h : ((files log).map AddFile.path).Nodup) : Dml.Snapshot where
  version := version log
  batches := [⟨((files log).map st.scanFile).map some, []⟩]
  deletionVectors :=
    supportsFeature log "deletionVectors" && flag log "delta.enableDeletionVectors"
  rowTracking := supportsFeature log "rowTracking"
  rowTrackingSuspended := flag log "delta.rowTrackingSuspended"
  icebergCompatV3 := supportsFeature log "icebergCompatV3" && flag log "delta.enableIcebergCompatV3"
  opened := .ok ()
  files_nodup := by
    rw [flatMap_singleton, selected_all, map_map]
    exact h

/-- What a commit wrote before its put: vectors, restated statistics, data files. -/
structure Written where
  vectors : Path → DeletionVector
  stats : AddFile → Option Text
  files : List AddFile

/-- A file with the vector its commit wrote for it. -/
def revectored (w : Written) (dataChange : Bool) (f : AddFile) : AddFile :=
  { f with
    deletionVector := some (w.vectors f.path)
    stats := w.stats f
    numRecords := some (st.count f.path)
    dataChange := dataChange }

/-- The files a staged commit takes out of the listing, to remove or to list anew. -/
def taken (staged : Dml.Staged) (f : AddFile) : Bool :=
  f.path ∈ staged.removes || (staged.updates.lookup f.path).isSome

def updated (staged : Dml.Staged) (w : Written) (dataChange : Bool) (fs : List AddFile) :
    List AddFile :=
  fs.filterMap fun f =>
    (staged.updates.lookup f.path).map fun _ => st.revectored w dataChange f

/-- The actions of a staged commit on a snapshot. -/
def entryOf (log : Log) (staged : Dml.Staged) (w : Written) (dataChange : Bool)
    (txns : List (Text × Int)) (info : Option Json) : Entry where
  adds := st.updated staged w dataChange (files log) ++ w.files
  removes := ((files log).filter (taken staged)).map AddFile.key
  metaData := none
  protocol := none
  txns := txns
  commitInfo := info

/-- What a commit wrote is what was staged, under paths of its own. -/
structure Holds (log : Log) (staged : Dml.Staged) (w : Written) : Prop where
  vectors : ∀ u ∈ staged.updates, st.hidden (w.vectors u.1) = u.2
  nodup : (w.files.map AddFile.path).Nodup
  fresh : ∀ f ∈ w.files, f.path ∉ (files log).map AddFile.path
  plain : ∀ f ∈ w.files, f.deletionVector = none
  describes : ∀ f ∈ w.files, st.Describes f

instance (log : Log) (staged : Dml.Staged) (w : Written) : Decidable (st.Holds log staged w) :=
  decidable_of_iff ((∀ u ∈ staged.updates, st.hidden (w.vectors u.1) = u.2) ∧
      (w.files.map AddFile.path).Nodup ∧
      (∀ f ∈ w.files, f.path ∉ (files log).map AddFile.path) ∧
      (∀ f ∈ w.files, f.deletionVector = none) ∧ ∀ f ∈ w.files, st.Describes f)
    ⟨fun h => ⟨h.1, h.2.1, h.2.2.1, h.2.2.2.1, h.2.2.2.2⟩,
      fun h => ⟨h.1, h.2, h.3, h.4, h.5⟩⟩

variable {st}

theorem scan_files {log : Log} (h : ((files log).map AddFile.path).Nodup) :
    (st.scan log h).files = (files log).map st.scanFile := by
  rw [Dml.Snapshot.files, scan, flatMap_singleton, selected_all]

theorem scanFile_visible {f : AddFile} (h : st.Describes f) :
    (st.scanFile f).visible = st.visible f := by
  have hhidden : (st.scanFile f).hidden = st.hiddenRows f := by
    have hsub := h.hidden
    have hvector : (st.scanFile f).vector = f.deletionVector.map fun v =>
        (st.hidden v).filter fun i => i < st.count f.path := rfl
    rw [Dml.ScanFile.hidden, hvector]
    unfold hiddenRows at *
    cases hv : f.deletionVector with
    | none => rfl
    | some v =>
      simp only [hv, Option.map_some, Option.getD_some] at hsub ⊢
      rw [Finset.filter_eq_self]
      intro i hi
      exact Finset.mem_range.mp (hsub hi)
  rw [Dml.ScanFile.visible, hhidden]
  rfl

theorem mem_updated {staged : Dml.Staged} {w : Written} {dataChange : Bool} {fs : List AddFile}
    {g : AddFile} : g ∈ st.updated staged w dataChange fs ↔
      ∃ f ∈ fs, (staged.updates.lookup f.path).isSome = true ∧
        g = st.revectored w dataChange f := by
  simp only [updated, mem_filterMap, Option.map_eq_some_iff, Option.isSome_iff_exists]
  constructor
  · rintro ⟨f, hf, deleted, hlookup, rfl⟩
    exact ⟨f, hf, ⟨deleted, hlookup⟩, rfl⟩
  · rintro ⟨f, hf, ⟨deleted, hlookup⟩, rfl⟩
    exact ⟨f, hf, deleted, hlookup, rfl⟩

theorem updated_taken {staged : Dml.Staged} {f : AddFile}
    (h : (staged.updates.lookup f.path).isSome = true) : taken staged f = true := by
  simp [taken, h]

theorem taken_congr {staged : Dml.Staged} {f g : AddFile} (h : f.path = g.path) :
    taken staged f = taken staged g := by
  simp only [taken, h]

theorem files_entryOf {log : Log} {staged : Dml.Staged} {w : Written} (hw : st.Holds log staged w)
    (dataChange : Bool) (txns : List (Text × Int)) (info : Option Json) :
    files (log ++ [st.entryOf log staged w dataChange txns info]) =
      (files log).filter (fun f => !taken staged f) ++
        (st.updated staged w dataChange (files log) ++ w.files) := by
  rw [files_append, reconcile]
  congr 1
  refine filter_congr fun f hf => ?_
  have hremoved : f.key ∈ (st.entryOf log staged w dataChange txns info).removes ↔
      taken staged f = true := by
    simp only [entryOf, mem_map, mem_filter]
    constructor
    · rintro ⟨g, ⟨_, htaken⟩, hkey⟩
      rw [taken_congr (congrArg Prod.fst hkey)] at htaken
      exact htaken
    · intro htaken
      exact ⟨f, ⟨hf, htaken⟩, rfl⟩
  have hadded : taken staged f = false →
      f.key ∉ (st.entryOf log staged w dataChange txns info).adds.map AddFile.key := by
    intro hkept hmem
    simp only [entryOf, map_append, mem_append, mem_map] at hmem
    rcases hmem with ⟨g, hg, hkey⟩ | ⟨g, hg, hkey⟩
    · obtain ⟨f', _, hupdated, rfl⟩ := mem_updated.mp hg
      have hpath : f'.path = f.path := congrArg Prod.fst hkey
      have htaken := updated_taken hupdated
      rw [taken_congr hpath, hkept] at htaken
      cases htaken
    · have hpath : g.path = f.path := congrArg Prod.fst hkey
      exact hw.fresh g hg (hpath ▸ mem_map.mpr ⟨f, hf, rfl⟩)
  cases htaken : taken staged f with
  | true => simp [hremoved.mpr htaken]
  | false =>
    have hnot : f.key ∉ (st.entryOf log staged w dataChange txns info).removes := by
      rw [hremoved, htaken]
      simp
    simp [hnot, hadded htaken]

section
variable {log : Log} {hnodup : ((files log).map AddFile.path).Nodup} {r : Dml.Request}
  {staged : Dml.Staged} {w : Written} {dataChange : Bool} {txns : List (Text × Int)}
  {info : Option Json}

theorem settled_of_stage (h : Dml.stage (st.scan log hnodup) r = .ok (some staged)) :
    ∃ touched, Dml.Settled (st.scan log hnodup) r touched ∧
      staged.removes = Dml.maskedRemoves (st.scan log hnodup) touched ∧
      staged.updates = Dml.maskedUpdates (st.scan log hnodup) touched := by
  obtain ⟨-, touched, data, hsettled, -, ⟨hnone, -⟩ | ⟨hsome, -⟩⟩ := Dml.stage_eq_ok h
  · cases hnone
  · cases hsome
    exact ⟨touched, hsettled, rfl, rfl⟩

variable {f : AddFile}

theorem mem_scan (hf : f ∈ files log) : st.scanFile f ∈ (st.scan log hnodup).files := by
  rw [scan_files]
  exact mem_map_of_mem hf

theorem expected_of_stage (h : Dml.stage (st.scan log hnodup) r = .ok (some staged))
    (hf : f ∈ files log) :
    Dml.expected r (st.scanFile f) = Dml.visibleAfter (some staged) (st.scanFile f) := by
  obtain ⟨touched, hsettled, hremoves, hupdates⟩ := settled_of_stage h
  rw [← hsettled.visibleAfter_eq (mem_scan hf) staged.deletedRows staged.data]
  simp only [Dml.visibleAfter, hremoves, hupdates]

theorem not_updated_of_removed (h : Dml.stage (st.scan log hnodup) r = .ok (some staged))
    (hf : f ∈ files log) (hremoved : f.path ∈ staged.removes) :
    staged.updates.lookup f.path = none := by
  obtain ⟨touched, hsettled, hremoves, hupdates⟩ := settled_of_stage h
  rw [hremoves] at hremoved
  obtain ⟨t, hfate, hremove⟩ := (hsettled.mem_removes (mem_scan hf)).mp hremoved
  have hlookup := hsettled.updates_lookup (mem_scan hf)
  rw [hfate] at hlookup
  have hnone : Option.filter (fun t : Dml.Touched => !t.remove) (some t) = none := by
    simp [Option.filter, hremove]
  rw [hnone] at hlookup
  rw [hupdates]
  exact hlookup

theorem not_taken (h : Dml.stage (st.scan log hnodup) r = .ok (some staged)) (hf : f ∈ files log)
    (hwhole : f.path ∉ r.wholeFiles) (hrows : r.requested f.path = ∅) : taken staged f = false := by
  obtain ⟨touched, hsettled, hremoves, hupdates⟩ := settled_of_stage h
  have hfate : Dml.fateOf (st.scan log hnodup) r (st.scanFile f) = none := by
    have hpath : (st.scanFile f).path = f.path := rfl
    rw [Dml.fateOf_eq_none_iff, hpath, if_neg hwhole, hrows]
    exact Finset.empty_subset _
  have hremoved : f.path ∉ staged.removes := by
    rw [hremoves]
    intro hmem
    obtain ⟨t, ht, -⟩ := (hsettled.mem_removes (mem_scan hf)).mp hmem
    rw [hfate] at ht
    cases ht
  have hlookup := hsettled.updates_lookup (mem_scan hf)
  rw [hfate] at hlookup
  have hnone : staged.updates.lookup f.path = none := by
    rw [hupdates]
    exact hlookup
  simp [taken, hremoved, hnone]

theorem deleted_subset (h : Dml.stage (st.scan log hnodup) r = .ok (some staged))
    (hf : f ∈ files log) {deleted : Finset Nat}
    (hlookup : staged.updates.lookup f.path = some deleted) :
    deleted ⊆ Finset.range (st.count f.path) := by
  obtain ⟨touched, hsettled, -, hupdates⟩ := settled_of_stage h
  rw [hupdates] at hlookup
  have hfate := (hsettled.updates_lookup (mem_scan hf)).symm.trans hlookup
  obtain ⟨t, ht, rfl⟩ := Option.map_eq_some_iff.mp hfate
  have ht := (Option.filter_eq_some_iff.mp ht).1
  by_cases hw : (st.scanFile f).path ∈ r.wholeFiles
  · rw [Dml.fateOf_whole hw] at ht
    split_ifs at ht
    · cases ht
      exact subset_rfl
    · cases ht
      exact Finset.empty_subset _
  · rw [Dml.fateOf_rows hw] at ht
    split_ifs at ht
    cases ht
    exact Finset.union_subset (st.scanFile f).hidden_subset (hsettled.in_range _ (mem_scan hf) hw)

theorem revectored_hidden (dataChange : Bool) (hw : st.Holds log staged w) {deleted : Finset Nat}
    (hlookup : staged.updates.lookup f.path = some deleted) :
    st.hiddenRows (st.revectored w dataChange f) = deleted := by
  have hmem : (f.path, deleted) ∈ staged.updates := by
    obtain ⟨l, l', hsplit, -⟩ := lookup_eq_some_iff.mp hlookup
    rw [hsplit]
    simp
  exact hw.vectors _ hmem

theorem shown_eq (dataChange : Bool) (hvalid : st.Valid log)
    (h : Dml.stage (st.scan log hnodup) r = .ok (some staged)) (hw : st.Holds log staged w)
    (hf : f ∈ files log) :
    st.rowsAt f.path (Dml.expected r (st.scanFile f)) =
      (if taken staged f then [] else st.liveRows f) ++
        st.rows (st.updated staged w dataChange [f]) := by
  rw [expected_of_stage h hf, Dml.visibleAfter]
  have hpath : (st.scanFile f).path = f.path := rfl
  have hcount : (st.scanFile f).count = st.count f.path := rfl
  rw [hpath]
  by_cases hremoved : f.path ∈ staged.removes
  · have hnone := not_updated_of_removed h hf hremoved
    simp [hremoved, taken, updated, hnone, rows, rowsAt_empty]
  · rw [if_neg hremoved]
    cases hlookup : staged.updates.lookup f.path with
    | none =>
      simp [hlookup, hremoved, taken, updated, rows, liveRows,
        scanFile_visible (hvalid.describes f hf)]
    | some deleted =>
      have hhidden := revectored_hidden dataChange hw hlookup
      have hlive : st.liveRows (st.revectored w dataChange f) =
          st.rowsAt f.path (Finset.range (st.count f.path) \ deleted) := by
        rw [liveRows, visible, hhidden]
        rfl
      simp [hlookup, taken, updated, rows, hlive, hcount]

theorem bag_shown (hvalid : st.Valid log)
    (h : Dml.stage (st.scan log hnodup) r = .ok (some staged)) (hw : st.Holds log staged w)
    (fs : List AddFile) (hfs : ∀ f ∈ fs, f ∈ files log) :
    st.bag (fs.filter fun f => !taken staged f) + st.bag (st.updated staged w dataChange fs) =
      (fs.flatMap fun f => st.rowsAt f.path (Dml.expected r (st.scanFile f)) : List ρ) := by
  induction fs with
  | nil => rfl
  | cons f fs ih =>
    have hf := hfs f mem_cons_self
    have hrest := ih fun g hg => hfs g (mem_cons_of_mem f hg)
    have hkept : st.bag ((f :: fs).filter fun f => !taken staged f) =
        ((if taken staged f then [] else st.liveRows f : List ρ) : Multiset ρ) +
          st.bag (fs.filter fun f => !taken staged f) := by
      cases htaken : taken staged f <;> simp [htaken, bag, rows]
    have hnew : st.bag (st.updated staged w dataChange (f :: fs)) =
        (st.rows (st.updated staged w dataChange [f]) : Multiset ρ) +
          st.bag (st.updated staged w dataChange fs) := by
      rw [← singleton_append, updated, filterMap_append, bag_append]
      rfl
    rw [hkept, hnew, flatMap_cons, ← Multiset.coe_add, ← hrest,
      shown_eq dataChange hvalid h hw hf, ← Multiset.coe_add]
    ac_rfl

/-- After the commit every file shows what the request leaves of it, beside
the rows written. -/
theorem bag_entryOf (hvalid : st.Valid log)
    (h : Dml.stage (st.scan log hnodup) r = .ok (some staged)) (hw : st.Holds log staged w) :
    st.bag (files (log ++ [st.entryOf log staged w dataChange txns info])) =
      ((files log).flatMap fun f => st.rowsAt f.path (Dml.expected r (st.scanFile f)) : List ρ) +
        st.bag w.files := by
  rw [files_entryOf hw, bag_append, bag_append, ← add_assoc,
    bag_shown hvalid h hw (files log) fun _ hf => hf]

theorem updated_paths (fs : List AddFile) :
    (st.updated staged w dataChange fs).map AddFile.path =
      (fs.filter fun f => (staged.updates.lookup f.path).isSome).map AddFile.path := by
  induction fs with
  | nil => rfl
  | cons f fs ih =>
    rw [updated] at ih ⊢
    cases hlookup : staged.updates.lookup f.path with
    | none => simpa [hlookup] using ih
    | some deleted => simpa [hlookup, revectored] using ih

theorem valid_entryOf (hvalid : st.Valid log)
    (h : Dml.stage (st.scan log hnodup) r = .ok (some staged)) (hw : st.Holds log staged w) :
    st.Valid (log ++ [st.entryOf log staged w dataChange txns info]) := by
  have hkept : ((files log).filter fun f => !taken staged f).map AddFile.path |>.Nodup :=
    hvalid.nodup.sublist (filter_sublist.map _)
  have hpaths : (st.updated staged w dataChange (files log)).map AddFile.path =
      ((files log).filter fun f => (staged.updates.lookup f.path).isSome).map AddFile.path :=
    updated_paths (files log)
  have hnew : ((st.updated staged w dataChange (files log)).map AddFile.path).Nodup := by
    rw [hpaths]
    exact hvalid.nodup.sublist (filter_sublist.map _)
  refine ⟨?_, fun f hf => ?_⟩
  · rw [files_entryOf hw, map_append, map_append, nodup_append]
    refine ⟨hkept, nodup_append.mpr ⟨hnew, hw.nodup, ?_⟩, ?_⟩
    · rintro path hpath _ hwritten rfl
      rw [hpaths] at hpath
      obtain ⟨f, hf, rfl⟩ := mem_map.mp hpath
      obtain ⟨g, hg, hgf⟩ := mem_map.mp hwritten
      exact hw.fresh g hg (hgf ▸ mem_map_of_mem (mem_filter.mp hf).1)
    · rintro path hpath _ hother rfl
      obtain ⟨f, hf, rfl⟩ := mem_map.mp hpath
      obtain ⟨hf, htaken⟩ := mem_filter.mp hf
      rcases mem_append.mp hother with hother | hother
      · rw [hpaths] at hother
        obtain ⟨g, hg, hgf⟩ := mem_map.mp hother
        have hgtaken := updated_taken (mem_filter.mp hg).2
        rw [taken_congr hgf] at hgtaken
        simp [hgtaken] at htaken
      · obtain ⟨g, hg, hgf⟩ := mem_map.mp hother
        exact hw.fresh g hg (hgf ▸ mem_map_of_mem hf)
  · rw [files_entryOf hw, mem_append, mem_append] at hf
    rcases hf with hf | hf | hf
    · exact hvalid.describes f (mem_filter.mp hf).1
    · obtain ⟨g, hg, hupdated, rfl⟩ := mem_updated.mp hf
      obtain ⟨deleted, hlookup⟩ := Option.isSome_iff_exists.mp hupdated
      refine ⟨fun n hn => (Option.some.inj hn).symm, ?_⟩
      rw [revectored_hidden dataChange hw hlookup]
      exact deleted_subset h hg hlookup
    · exact hw.describes f hf

end

end Storage

end DeltaSwamp.Table
