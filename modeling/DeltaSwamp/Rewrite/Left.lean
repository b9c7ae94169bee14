import DeltaSwamp.Rewrite.Paths

/-!
# What the row-level commits leave

The rows a statement matches, those it keeps, and those read back by their
packed keys; and what a commit of deletion vectors or of whole files leaves.
-/

namespace DeltaSwamp.Rewrite

open Table List

section
variable {ρ : Type} {st : Storage ρ}

theorem rowsAt_filter (path : Path) (shown : Finset Nat) (keep : Nat → Bool) (p : ρ → Bool)
    (h : ∀ i r, (st.contents path)[i]? = some r → keep i = p r) :
    st.rowsAt path (shown.filter fun i => keep i) = (st.rowsAt path shown).filter p := by
  unfold Storage.rowsAt
  rw [filter_map, filter_filter]
  congr 1
  refine filter_congr fun x hx => ?_
  have hkeep := h x.2 x.1 (mem_zipIdx_iff_getElem?.mp hx)
  simp [hkeep, Bool.and_comm]

theorem rowsAt_sublist (path : Path) {shown more : Finset Nat} (h : shown ⊆ more) :
    (st.rowsAt path shown).Sublist (st.rowsAt path more) := by
  refine List.Sublist.map _ (monotone_filter_right _ fun x hx => ?_)
  simpa using h (by simpa using hx)

theorem rowsAt_eq_iff (path : Path) {shown more : Finset Nat} (h : shown ⊆ more)
    (hmore : more ⊆ Finset.range (st.count path)) :
    st.rowsAt path shown = st.rowsAt path more ↔ more ⊆ shown := by
  constructor
  · intro heq i hi
    by_contra hnot
    have hsub : ((st.contents path).zipIdx.filter fun r => r.2 ∈ shown) =
        ((st.contents path).zipIdx.filter fun r => r.2 ∈ more).filter fun r => r.2 ∈ shown := by
      rw [filter_filter]
      refine filter_congr fun x _ => ?_
      by_cases hx : x.2 ∈ shown
      · simp [hx, h hx]
      · simp [hx]
    have hlt : i < (st.contents path).length := Finset.mem_range.mp (hmore hi)
    have hmem : ((st.contents path)[i], i) ∈
        (st.contents path).zipIdx.filter fun r => r.2 ∈ more := by
      rw [mem_filter, mem_zipIdx_iff_getElem?]
      exact ⟨by simp, by simpa using hi⟩
    have hfewer : (((st.contents path).zipIdx.filter fun r => r.2 ∈ more).filter
        fun r => r.2 ∈ shown).length <
          ((st.contents path).zipIdx.filter fun r => r.2 ∈ more).length :=
      length_filter_lt_length_iff_exists.mpr ⟨_, hmem, by simpa using hnot⟩
    have hlength := congrArg List.length heq
    rw [Storage.rowsAt, Storage.rowsAt, length_map, length_map, hsub] at hlength
    exact absurd hlength (Nat.ne_of_lt hfewer)
  · intro hback
    rw [h.antisymm hback]

theorem length_rowsAt (path : Path) {shown : Finset Nat}
    (h : shown ⊆ Finset.range (st.count path)) : (st.rowsAt path shown).length = shown.card := by
  have hindexes : ((st.contents path).zipIdx.filter fun r => r.2 ∈ shown).map Prod.snd =
      (List.range (st.count path)).filter fun i => i ∈ shown := by
    have hsnd : (st.contents path).zipIdx.map Prod.snd = List.range (st.count path) := by
      rw [zipIdx_map_snd, range_eq_range', Storage.count]
    rw [← hsnd, filter_map]
    rfl
  have hfinset : ((List.range (st.count path)).filter fun i => i ∈ shown).toFinset = shown := by
    ext i
    simp only [mem_toFinset, mem_filter, mem_range, decide_eq_true_eq]
    exact ⟨And.right, fun hi => ⟨Finset.mem_range.mp (h hi), hi⟩⟩
  have hlength := congrArg List.length hindexes
  rw [length_map] at hlength
  rw [Storage.rowsAt, length_map, hlength,
    ← toFinset_card_of_nodup (nodup_range.filter _), hfinset]

theorem flatMap_perm_iff {α β : Type} {xs : List α} {part whole : α → List β}
    (h : ∀ x ∈ xs, (part x).Sublist (whole x)) :
    (xs.flatMap part).Perm (xs.flatMap whole) ↔ ∀ x ∈ xs, part x = whole x := by
  constructor
  · intro hperm
    have hlength := hperm.length_eq
    clear hperm
    induction xs with
    | nil => exact fun _ hx => nomatch hx
    | cons x xs ih =>
      have hhead := (h x mem_cons_self).length_le
      have htail : (xs.flatMap part).length ≤ (xs.flatMap whole).length := by
        rw [length_flatMap, length_flatMap]
        exact sum_le_sum fun y hy => (h y (mem_cons_of_mem x hy)).length_le
      rw [flatMap_cons, flatMap_cons, length_append, length_append] at hlength
      rw [forall_mem_cons]
      exact ⟨(h x mem_cons_self).eq_of_length (by omega),
        ih (fun y hy => h y (mem_cons_of_mem x hy)) (by omega)⟩
  · intro hall
    rw [flatMap_congr hall]

end

section
variable {ν : Type} {st : Storage (Row ν)} (c : Contents st) (m : Row ν → Bool)

theorem matchedAt_eq (f : AddFile) :
    st.rowsAt f.path (matchedAt st m f) = (st.liveRows f).filter m := by
  refine rowsAt_filter f.path _ _ m fun i r hr => ?_
  rw [hr, Option.any_some]

theorem matchedRows_eq : matchedRows c m = (st.rows (files c.log)).filter m := by
  unfold matchedRows Storage.rows
  rw [filter_flatMap]
  exact flatMap_congr fun f _ => matchedAt_eq m f

theorem visible_lt (st : Storage (Row ν)) (f : AddFile) :
    st.visible f ⊆ Finset.range (st.count f.path) := Finset.sdiff_subset

theorem kept_eq (f : AddFile) :
    st.rowsAt f.path (st.visible f \ matchedAt st m f) = (st.liveRows f).filter fun r => !m r := by
  have hkept : st.visible f \ matchedAt st m f =
      (st.visible f).filter fun i => !((st.contents f.path)[i]?).any m := by
    ext i
    simp only [matchedAt, Finset.mem_sdiff, Finset.mem_filter]
    by_cases hi : i ∈ st.visible f <;> simp [hi]
  rw [hkept]
  refine rowsAt_filter f.path _ _ (fun r => !m r) fun i r hr => ?_
  rw [hr, Option.any_some]

theorem matchedAt_subset (f : AddFile) : matchedAt st m f ⊆ st.visible f :=
  Finset.filter_subset _ _

variable {path : Path}

theorem mem_deletions {rows : Finset Nat} :
    (path, rows) ∈ deletions c m ↔
      ∃ f ∈ files c.log, f.path = path ∧ matchedAt st m f = rows ∧ rows ≠ ∅ := by
  simp only [deletions, mem_filter, mem_map, decide_eq_true_eq, Prod.mk.injEq]
  constructor
  · rintro ⟨⟨f, hf, rfl, rfl⟩, hne⟩
    exact ⟨f, hf, rfl, rfl, hne⟩
  · rintro ⟨f, hf, rfl, rfl, hne⟩
    exact ⟨⟨f, hf, rfl, rfl⟩, hne⟩

theorem deletions_nodup : ((deletions c m).map Prod.fst).Nodup := (asked c m none).deletions_nodup

variable {f : AddFile}

theorem requested_eq (data : Option (List (Row ν))) (hf : f ∈ files c.log) :
    (request (asked c m data)).requested f.path = matchedAt st m f := by
  have hlookup := Assoc.lookup_eq_some_iff (deletions_nodup c m) f.path (matchedAt st m f)
  unfold Dml.Request.requested
  change ((deletions c m).lookup f.path).getD ∅ = _
  by_cases hempty : matchedAt st m f = ∅
  · cases hfound : (deletions c m).lookup f.path with
    | none => exact hempty.symm
    | some rows =>
      have hmem := (Assoc.lookup_eq_some_iff (deletions_nodup c m) f.path rows).mp hfound
      obtain ⟨g, hg, hpath, rfl, hne⟩ := (mem_deletions c m).mp hmem
      have hsame := inj_on_of_nodup_map c.valid.nodup hg hf hpath
      rw [hsame] at hne
      exact absurd hempty hne
  · rw [hlookup.mpr ((mem_deletions c m).mpr ⟨f, hf, rfl, rfl, hempty⟩)]
    rfl

theorem deletions_eq_nil_iff : deletions c m = [] ↔ (st.rows (files c.log)).filter m = [] := by
  rw [← matchedRows_eq, matchedRows, flatMap_eq_nil_iff]
  constructor
  · intro hnil f hf
    have hempty : matchedAt st m f = ∅ := by
      by_contra hne
      have hmem := (mem_deletions c m).mpr ⟨f, hf, rfl, rfl, hne⟩
      rw [hnil] at hmem
      cases hmem
    rw [hempty, Storage.rowsAt_empty]
  · intro hnone
    rw [eq_nil_iff_forall_not_mem]
    rintro ⟨path, rows⟩ hmem
    obtain ⟨f, hf, rfl, rfl, hne⟩ := (mem_deletions c m).mp hmem
    have hshown : st.rowsAt f.path ∅ = st.rowsAt f.path (matchedAt st m f) := by
      rw [hnone f hf, Storage.rowsAt_empty]
    have hall := (rowsAt_eq_iff f.path (Finset.empty_subset _)
      ((matchedAt_subset m f).trans (visible_lt st f))).mp hshown
    exact hne (Finset.subset_empty.mp hall)

theorem liveRecords_eq {n : Int} (h : liveRecords f = some n) (hdescribes : st.Describes f)
    (hcounted : ∀ v ∈ f.deletionVector, v.cardinality = (st.hidden v).card) :
    n = (st.liveRows f).length := by
  have hcard : (st.hiddenRows f).card =
      (f.deletionVector.map DeletionVector.cardinality).getD 0 := by
    unfold Storage.hiddenRows
    cases hv : f.deletionVector with
    | none => rfl
    | some v => exact (hcounted v hv).symm
  have hle := Finset.card_le_card hdescribes.hidden
  rw [Finset.card_range, hcard] at hle
  obtain ⟨count, hcount, rfl⟩ := Option.map_eq_some_iff.mp h
  rw [Storage.liveRows, length_rowsAt f.path (visible_lt st f), Storage.visible,
    Finset.card_sdiff_of_subset hdescribes.hidden, Finset.card_range, hcard,
    hdescribes.numRecords count hcount]
  omega

theorem liveCount_eq {fs : List AddFile} {live : Int} (h : liveCount fs = some live)
    (hdescribes : ∀ f ∈ fs, st.Describes f)
    (hcounted : ∀ f ∈ fs, ∀ v ∈ f.deletionVector, v.cardinality = (st.hidden v).card) :
    live = (st.rows fs).length := by
  induction fs generalizing live with
  | nil =>
    cases h
    rfl
  | cons f fs ih =>
    obtain ⟨counts, hcounts, rfl⟩ := Option.map_eq_some_iff.mp h
    rw [mapM_cons] at hcounts
    obtain ⟨n, hn, hcounts⟩ := Option.bind_eq_some_iff.mp hcounts
    obtain ⟨others, hothers, hcounts⟩ := Option.bind_eq_some_iff.mp hcounts
    obtain rfl := Option.some.inj hcounts
    have hfirst := liveRecords_eq hn (hdescribes f mem_cons_self)
      (hcounted f mem_cons_self)
    have hrest : others.sum = (st.rows fs).length :=
      ih (by rw [liveCount, hothers]; rfl) (fun g hg => hdescribes g (mem_cons_of_mem f hg))
        fun g hg => hcounted g (mem_cons_of_mem f hg)
    have hlength : (st.rows (f :: fs)).length = (st.liveRows f).length + (st.rows fs).length := by
      rw [Storage.rows, flatMap_cons, length_append]
      rfl
    rw [sum_cons, hfirst, hrest, hlength, Nat.cast_add]

/-- No row a statement keeps has the packed key of one it deletes. -/
def Apart : Prop :=
  ∀ f ∈ files c.log, f.path ∈ touchedPaths (deletions c m) →
    ∀ i ∈ st.visible f \ matchedAt st m f, isGone (deletions c m) f.path i = false

theorem mem_touchedPaths (hf : f ∈ files c.log) :
    f.path ∈ touchedPaths (deletions c m) ↔ matchedAt st m f ≠ ∅ := by
  rw [touchedPaths, mem_insertionSort, mem_dedup, mem_map]
  constructor
  · rintro ⟨⟨path, rows⟩, hmem, hpath⟩
    obtain ⟨g, hg, rfl, rfl, hne⟩ := (mem_deletions c m).mp hmem
    rwa [← inj_on_of_nodup_map c.valid.nodup hg hf hpath]
  · intro hne
    exact ⟨(f.path, matchedAt st m f), (mem_deletions c m).mpr ⟨f, hf, rfl, rfl, hne⟩, rfl⟩

theorem exists_visible {m : Row ν → Bool} (h : (st.rows (files c.log)).filter m ≠ []) :
    ∃ f ∈ files c.log, f.path ∈ touchedPaths (deletions c m) ∧ st.visible f ≠ ∅ := by
  have hne : deletions c m ≠ [] := fun hnil => h ((deletions_eq_nil_iff c m).mp hnil)
  obtain ⟨⟨path, rows⟩, hmem⟩ := exists_mem_of_ne_nil _ hne
  obtain ⟨f, hf, rfl, rfl, hrows⟩ := (mem_deletions c m).mp hmem
  refine ⟨f, hf, (mem_touchedPaths c m hf).mpr hrows, fun hempty => ?_⟩
  exact hrows (Finset.subset_empty.mp (hempty ▸ matchedAt_subset m f))

theorem isGone_of_matched (hf : f ∈ files c.log) {i : Nat} (hi : i ∈ matchedAt st m f) :
    isGone (deletions c m) f.path i = true := by
  have hmem := (mem_deletions c m).mpr ⟨f, hf, rfl, rfl, Finset.ne_empty_of_mem hi⟩
  rw [isGone, any_eq_true]
  exact ⟨_, hmem, decide_eq_true (Finset.mem_image_of_mem _ hi)⟩

theorem notGone_subset (hf : f ∈ files c.log) :
    (st.visible f).filter (fun i => !isGone (deletions c m) f.path i) ⊆
      st.visible f \ matchedAt st m f := by
  intro i hi
  obtain ⟨hvisible, hkept⟩ := Finset.mem_filter.mp hi
  refine Finset.mem_sdiff.mpr ⟨hvisible, fun hmatched => ?_⟩
  rw [isGone_of_matched c m hf hmatched] at hkept
  cases hkept

theorem readBack_perm_iff : (readBack c (deletions c m)).Perm
    (((files c.log).filter fun f => f.path ∈ touchedPaths (deletions c m)).flatMap fun f =>
      (st.liveRows f).filter fun r => !m r) ↔ Apart c m := by
  have hfile : ∀ f ∈ files c.log,
      st.rowsAt f.path ((st.visible f).filter fun i => !isGone (deletions c m) f.path i) =
        (st.liveRows f).filter (fun r => !m r) ↔
      ∀ i ∈ st.visible f \ matchedAt st m f, isGone (deletions c m) f.path i = false := by
    intro f hf
    rw [← kept_eq, rowsAt_eq_iff f.path (notGone_subset c m hf)
      (Finset.sdiff_subset.trans (visible_lt st f))]
    constructor
    · intro hback i hi
      simpa using (Finset.mem_filter.mp (hback hi)).2
    · intro hall i hi
      exact Finset.mem_filter.mpr ⟨(Finset.mem_sdiff.mp hi).1, by simp [hall i hi]⟩
  unfold readBack
  rw [flatMap_perm_iff]
  · constructor
    · intro hall f hf htouched
      exact (hfile f hf).mp (hall f (mem_filter.mpr ⟨hf, decide_eq_true htouched⟩))
    · intro hapart f hf
      obtain ⟨hf, htouched⟩ := mem_filter.mp hf
      exact (hfile f hf).mpr (hapart f hf (of_decide_eq_true htouched))
  · intro f hf
    rw [← kept_eq]
    exact rowsAt_sublist f.path (notGone_subset c m (mem_filter.mp hf).1)

theorem readBack_subset : readBack c (deletions c m) ⊆
    (st.rows (files c.log)).filter fun r => !m r := by
  intro r hr
  obtain ⟨f, hf, hr⟩ := mem_flatMap.mp hr
  obtain ⟨hf, -⟩ := mem_filter.mp hf
  have hkept := (rowsAt_sublist f.path (notGone_subset c m hf)).subset hr
  rw [kept_eq] at hkept
  obtain ⟨hlive, hnot⟩ := mem_filter.mp hkept
  exact mem_filter.mpr ⟨mem_flatMap.mpr ⟨f, hf, hlive⟩, hnot⟩

theorem kept_perm : ((st.rows (files c.log)).filter fun r => !m r).Perm
    (st.rows ((files c.log).filter fun f => f.path ∉ touchedPaths (deletions c m)) ++
      ((files c.log).filter fun f => f.path ∈ touchedPaths (deletions c m)).flatMap fun f =>
        (st.liveRows f).filter fun r => !m r) := by
  have huntouched : st.rows ((files c.log).filter fun f => f.path ∉ touchedPaths (deletions c m)) =
      ((files c.log).filter fun f => f.path ∉ touchedPaths (deletions c m)).flatMap fun f =>
        (st.liveRows f).filter fun r => !m r := by
    refine flatMap_congr fun f hf => ?_
    obtain ⟨hf, hnot⟩ := mem_filter.mp hf
    have hnone : matchedAt st m f = ∅ := by
      by_contra hne
      exact of_decide_eq_true hnot ((mem_touchedPaths c m hf).mpr hne)
    rw [← kept_eq, hnone, Finset.sdiff_empty, Storage.liveRows]
  rw [huntouched, ← flatMap_append, Storage.rows, filter_flatMap]
  refine List.Perm.flatMap_right _ ?_
  have hsplit := filter_append_perm
    (fun f : AddFile => decide (f.path ∉ touchedPaths (deletions c m))) (files c.log)
  simpa using hsplit.symm

theorem scan_readable : Dml.Readable (st.scan c.log c.valid.nodup) := by
  have hscan : ∀ f ∈ (st.scan c.log c.valid.nodup).files, ∃ g, st.scanFile g = f := by
    intro f hf
    rw [Storage.scan_files] at hf
    obtain ⟨g, -, hg⟩ := mem_map.mp hf
    exact ⟨g, hg⟩
  constructor
  · intro f hf
    obtain ⟨g, rfl⟩ := hscan f hf
    rfl
  · intro f hf
    obtain ⟨g, rfl⟩ := hscan f hf
    rfl
  · rfl

theorem exists_scan (h : ∃ f ∈ files c.log, f.path = path) :
    ∃ f ∈ (st.scan c.log c.valid.nodup).files, f.path = path := by
  obtain ⟨f, hf, rfl⟩ := h
  exact ⟨st.scanFile f, Storage.mem_scan hf, rfl⟩

variable {a : Asked ν}

theorem commitDml_of_staged (h : ∃ staged,
    Dml.stage (st.scan c.log c.valid.nodup) (request a) = .ok staged) :
    commitDml c a = some (a.affected, left c a) := by
  obtain ⟨staged, hstage⟩ := h
  rw [commitDml, hstage]

theorem commitDml_of_refused (h : ¬ ∃ staged,
    Dml.stage (st.scan c.log c.valid.nodup) (request a) = .ok staged) : commitDml c a = none := by
  unfold commitDml
  split
  · rfl
  · next staged hstage => exact absurd ⟨staged, hstage⟩ h

theorem request_requested (a : Asked ν) (path : Path) :
    (request a).requested path = (a.deletions.lookup path).getD ∅ := rfl

theorem asked_named (data : Option (List (Row ν))) :
    Dml.Named (st.scan c.log c.valid.nodup) (request (asked c m data)) := by
  refine ⟨fun path hpath => absurd hpath not_mem_nil, fun path hne _ => exists_scan c ?_,
    fun f hscan _ => ?_⟩
  · have hsome : ((deletions c m).lookup path).getD ∅ ≠ ∅ := hne
    cases hfound : (deletions c m).lookup path with
    | none => simp [hfound] at hsome
    | some rows =>
      have hmem := (Assoc.lookup_eq_some_iff (deletions_nodup c m) path rows).mp hfound
      obtain ⟨f, hf, hpath, -⟩ := (mem_deletions c m).mp hmem
      exact ⟨f, hf, hpath⟩
  · rw [Storage.scan_files] at hscan
    obtain ⟨g, hg, rfl⟩ := mem_map.mp hscan
    change (request (asked c m data)).requested g.path ⊆ _
    rw [requested_eq c m data hg]
    exact (matchedAt_subset m g).trans (visible_lt st g)

theorem left_asked (data : Option (List (Row ν))) : left c (asked c m data) =
    ((st.rows (files c.log)).filter fun r => !m r : List (Row ν)) +
      (data.getD [] : Multiset (Row ν)) := by
  unfold left
  congr 2
  rw [Storage.rows, filter_flatMap]
  refine flatMap_congr fun f hf => ?_
  have hexpected : Dml.expected (request (asked c m data)) (st.scanFile f) =
      st.visible f \ matchedAt st m f := by
    rw [Dml.expected_rows (fun hw => absurd hw not_mem_nil),
      Storage.scanFile_visible (c.valid.describes f hf)]
    change _ \ (request (asked c m data)).requested f.path = _
    rw [requested_eq c m data hf]
  rw [hexpected, kept_eq]

theorem left_whole (a : Asked ν) (hnone : a.deletions = []) : left c a =
    st.bag ((files c.log).filter fun f => f.path ∉ a.whole) +
      (a.data.getD [] : Multiset (Row ν)) := by
  unfold left Storage.bag Storage.rows
  congr 2
  have hexpected : ∀ f ∈ files c.log, st.rowsAt f.path (Dml.expected (request a) (st.scanFile f)) =
      if f.path ∉ a.whole then st.liveRows f else [] := by
    intro f hf
    have hpath : (st.scanFile f).path = f.path := rfl
    have hrequested : (request a).requested f.path = ∅ := by
      rw [request_requested, hnone]
      rfl
    unfold Dml.expected
    rw [hpath, hrequested, Finset.sdiff_empty, Storage.scanFile_visible (c.valid.describes f hf)]
    change st.rowsAt f.path (if f.path ∈ a.whole then _ else _) = _
    by_cases hw : f.path ∈ a.whole
    · simp [hw, Storage.rowsAt_empty]
    · simp [hw, Storage.liveRows]
  rw [flatMap_congr hexpected]
  generalize files c.log = fs
  induction fs with
  | nil => rfl
  | cons f fs ih =>
    rw [flatMap_cons, ih, filter_cons]
    by_cases hw : f.path ∈ a.whole <;> simp [hw]

theorem whole_named (hnone : a.deletions = [])
    (hlive : ∀ path ∈ a.whole, ∃ f ∈ files c.log, f.path = path) :
    Dml.Named (st.scan c.log c.valid.nodup) (request a) := by
  have hrequested : ∀ path, (request a).requested path = ∅ := by
    intro path
    rw [request_requested, hnone]
    rfl
  refine ⟨fun path hpath => exists_scan c (hlive path hpath), fun path hne _ => ?_,
    fun f _ _ => ?_⟩
  · exact absurd (hrequested path) hne
  · rw [hrequested]
    exact Finset.empty_subset _

theorem request_rowDeletions (hnone : a.deletions = []) : (request a).rowDeletions = [] := by
  change a.deletions.filter _ = []
  rw [hnone, filter_nil]

theorem asFileRewrites_whole (data : Option (List (Row ν))) :
    path ∈ (asFileRewrites c (asked c m data)).whole ↔ path ∈ touchedPaths (deletions c m) := by
  change path ∈ (touchedPaths (deletions c m) ++ []).dedup ↔ _
  rw [append_nil, mem_dedup]

theorem dataOf_getD (rows : List (Row ν)) : (dataOf rows).getD [] = rows := by
  unfold dataOf
  split_ifs with hempty
  · exact hempty.symm
  · rfl

theorem asFileRewrites_data (data : Option (List (Row ν))) :
    (asFileRewrites c (asked c m data)).data.getD [] =
      readBack c (deletions c m) ++ data.getD [] :=
  dataOf_getD _

theorem left_rewrites (data : Option (List (Row ν))) :
    left c (asFileRewrites c (asked c m data)) =
      st.bag ((files c.log).filter fun f => f.path ∉ touchedPaths (deletions c m)) +
        (readBack c (deletions c m) ++ data.getD [] : List (Row ν)) := by
  rw [left_whole c _ rfl, asFileRewrites_data]
  simp only [asFileRewrites_whole]

theorem left_rewrites_eq_iff (data : Option (List (Row ν))) :
    left c (asFileRewrites c (asked c m data)) = left c (asked c m data) ↔ Apart c m := by
  have hkept : (((st.rows (files c.log)).filter fun r => !m r : List (Row ν)) :
      Multiset (Row ν)) = st.bag ((files c.log).filter fun f =>
        f.path ∉ touchedPaths (deletions c m)) +
        (((files c.log).filter fun f => f.path ∈ touchedPaths (deletions c m)).flatMap fun f =>
          (st.liveRows f).filter fun r => !m r : List (Row ν)) := by
    rw [Storage.bag, Multiset.coe_add, Multiset.coe_eq_coe]
    exact kept_perm c m
  rw [left_rewrites, left_asked, hkept, ← Multiset.coe_add, ← add_assoc, add_left_inj,
    add_right_inj, Multiset.coe_eq_coe, readBack_perm_iff]

end

/-- What a commit of new rows is to do. -/
def committed {ν : Type} (admits : Row ν → Bool) (rows : List (Row ν)) (m : Row ν → Bool)
    (new : List (Row ν)) : Option (Nat × Multiset (Row ν)) :=
  if new.all admits then
    some ((rows.filter m).length,
      (rows.filter fun r => !m r : List (Row ν)) + (new : Multiset (Row ν)))
  else none

section
variable {ν : Type} {st : Storage (Row ν)} {c : Contents st} {admits : Row ν → Bool}

theorem commit_vectors {dvPath : Bool} {m : Row ν → Bool} (new : List (Row ν))
    (hpath : dvPath = true ∨ (st.rows (files c.log)).filter m = [])
    (hvectors : (st.scan c.log c.valid.nodup).deletionVectors = true ∨
      (st.rows (files c.log)).filter m = []) :
    commitDvChanges admits c dvPath (asked c m (dataOf new)) =
      committed admits (st.rows (files c.log)) m new := by
  have hkeep : ¬ ((asked c m (dataOf new)).deletions ≠ [] ∧ dvPath = false) := by
    rintro ⟨hne, hoff⟩
    rcases hpath with hpath | hnone
    · rw [hpath] at hoff
      cases hoff
    · exact hne ((deletions_eq_nil_iff c m).mpr hnone)
  have hstaged : ∃ staged, Dml.stage (st.scan c.log c.valid.nodup)
      (request (asked c m (dataOf new))) = .ok staged := by
    apply (Dml.stage_isOk_iff (scan_readable c) (asked_named c m _) rfl).mpr
    rcases hvectors with hvectors | hnone
    · exact .inl hvectors
    · have hnil : (asked c m (dataOf new)).deletions = [] := (deletions_eq_nil_iff c m).mpr hnone
      exact .inr ⟨request_rowDeletions hnil, fun _ _ hw => absurd hw not_mem_nil⟩
  have haffected : (asked c m (dataOf new)).affected =
      ((st.rows (files c.log)).filter m).length := by
    rw [← matchedRows_eq]
    rfl
  have hdata : (asked c m (dataOf new)).data.getD [] = new := dataOf_getD new
  unfold commitDvChanges committed
  rw [if_neg hkeep]
  dsimp only
  rw [hdata, commitDml_of_staged c hstaged, haffected, left_asked, dataOf_getD]

/-- A commit of rewritten files needs files that can be removed, rows kept that
are admitted and keys that are apart. -/
theorem commit_rewrites_iff {m : Row ν → Bool} (new : List (Row ν))
    (hmatched : (st.rows (files c.log)).filter m ≠ [])
    (hvectors : (st.scan c.log c.valid.nodup).deletionVectors = false) :
    commitDvChanges admits c false (asked c m (dataOf new)) =
        committed admits (st.rows (files c.log)) m new ↔
      (new.all admits = true → (st.scan c.log c.valid.nodup).allowRemove = true ∧
        (readBack c (deletions c m)).all admits = true ∧ Apart c m) := by
  have hrewrite : (asked c m (dataOf new)).deletions ≠ [] ∧ false = false :=
    ⟨fun hnil => hmatched ((deletions_eq_nil_iff c m).mp hnil), rfl⟩
  have hstaged : (∃ staged, Dml.stage (st.scan c.log c.valid.nodup)
      (request (asFileRewrites c (asked c m (dataOf new)))) = .ok staged) ↔
      (st.scan c.log c.valid.nodup).allowRemove = true := by
    have hnamed : Dml.Named (st.scan c.log c.valid.nodup)
        (request (asFileRewrites c (asked c m (dataOf new)))) := by
      refine whole_named c rfl fun path hpath => ?_
      rw [asFileRewrites_whole, touchedPaths, mem_insertionSort, mem_dedup] at hpath
      obtain ⟨⟨p, rows⟩, hmem, rfl⟩ := mem_map.mp hpath
      obtain ⟨f, hf, hpath, -⟩ := (mem_deletions c m).mp hmem
      exact ⟨f, hf, hpath⟩
    rw [Dml.stage_isOk_iff (scan_readable c) hnamed rfl, hvectors]
    constructor
    · rintro (hfalse | ⟨-, hall⟩)
      · cases hfalse
      · obtain ⟨f, hf, htouched, hvisible⟩ := exists_visible c hmatched
        have hwhole := (asFileRewrites_whole c m (dataOf new)).mpr htouched
        rcases hall (st.scanFile f) (Storage.mem_scan hf) hwhole with hallow | hempty
        · exact hallow
        · rw [Storage.scanFile_visible (c.valid.describes f hf)] at hempty
          exact absurd hempty hvisible
    · intro hallow
      exact .inr ⟨request_rowDeletions rfl, fun _ _ _ => .inl hallow⟩
  have haffected : (asFileRewrites c (asked c m (dataOf new))).affected =
      ((st.rows (files c.log)).filter m).length := by
    rw [← matchedRows_eq]
    rfl
  have hleft := left_rewrites_eq_iff c m (dataOf new)
  rw [left_asked, dataOf_getD] at hleft
  unfold commitDvChanges committed
  rw [if_pos hrewrite]
  dsimp only
  rw [asFileRewrites_data, dataOf_getD, all_append]
  by_cases hnew : new.all admits = true
  · rw [if_pos hnew, hnew, Bool.and_true]
    by_cases hread : (readBack c (deletions c m)).all admits = true
    · rw [if_pos hread]
      by_cases hallow : (st.scan c.log c.valid.nodup).allowRemove = true
      · rw [commitDml_of_staged c (hstaged.mpr hallow), haffected, Option.some_inj, Prod.mk.injEq,
          hleft]
        simp [hallow, hread]
      · rw [commitDml_of_refused c (fun h => hallow (hstaged.mp h))]
        simp [hallow]
    · simp [hread]
  · simp [hnew]

theorem commit_table {rows replacement new : List (Row ν)} {m : Row ν → Bool}
    (h : replacement.Perm ((rows.filter fun r => !m r) ++ new)) :
    (if (rows.filter m).length = 0 ∧ replacement.length = rows.length then
        some (0, (rows : Multiset (Row ν)))
      else if replacement.all admits then
        some ((rows.filter m).length, (replacement : Multiset (Row ν)))
      else none) =
    if rows.filter m = [] ∧ new = [] then some (0, (rows : Multiset (Row ν)))
    else if (rows.filter fun r => !m r).all admits then committed admits rows m new else none := by
  have hlength : replacement.length = (rows.filter fun r => !m r).length + new.length := by
    rw [h.length_eq, length_append]
  have hsplit := length_eq_length_filter_add (l := rows) m
  have hidle : (rows.filter m).length = 0 ∧ replacement.length = rows.length ↔
      rows.filter m = [] ∧ new = [] := by
    rw [← length_eq_zero_iff, ← length_eq_zero_iff]
    omega
  have hadmits : replacement.all admits =
      ((rows.filter fun r => !m r).all admits && new.all admits) := by
    rw [h.all_eq, all_append]
  have hbag : (replacement : Multiset (Row ν)) =
      (rows.filter fun r => !m r : List (Row ν)) + (new : Multiset (Row ν)) := by
    rw [Multiset.coe_add]
    exact Multiset.coe_eq_coe.mpr h
  unfold committed
  rw [hadmits, hbag]
  by_cases hnone : rows.filter m = [] ∧ new = []
  · rw [if_pos (hidle.mpr hnone), if_pos hnone]
  · rw [if_neg fun hz => hnone (hidle.mp hz), if_neg hnone]
    by_cases hkept : ((rows.filter fun r => !m r).all admits) = true
    · rw [hkept, Bool.true_and, if_pos rfl]
    · simp [hkept]

theorem commit_everyFile {dvPath : Bool} {live : Int} (h : st.rows (files c.log) ≠ []) :
    ((st.scan c.log c.valid.nodup).deletionVectors = true ∨
        (st.scan c.log c.valid.nodup).allowRemove = true →
      commitDvChanges admits c dvPath (everyFile c live) = some (live.toNat, 0)) ∧
    (¬ ((st.scan c.log c.valid.nodup).deletionVectors = true ∨
        (st.scan c.log c.valid.nodup).allowRemove = true) →
      commitDvChanges admits c dvPath (everyFile c live) = none) := by
  have hkeep : ¬ ((everyFile c live).deletions ≠ [] ∧ dvPath = false) := fun hne => hne.1 rfl
  have hcommit : commitDvChanges admits c dvPath (everyFile c live) =
      commitDml c (everyFile c live) := by
    unfold commitDvChanges
    rw [if_neg hkeep]
    rfl
  have hleft : left c (everyFile c live) = 0 := by
    have hgone : (files c.log).filter (fun f => f.path ∉ (everyFile c live).whole) = [] := by
      rw [filter_eq_nil_iff]
      intro f hf hgone
      exact of_decide_eq_true hgone (mem_map_of_mem hf)
    rw [left_whole c (everyFile c live) rfl, hgone]
    rfl
  have hnamed : Dml.Named (st.scan c.log c.valid.nodup) (request (everyFile c live)) :=
    whole_named c rfl fun path hpath => mem_map.mp hpath
  have hstaged : (∃ staged, Dml.stage (st.scan c.log c.valid.nodup)
      (request (everyFile c live)) = .ok staged) ↔
      (st.scan c.log c.valid.nodup).deletionVectors = true ∨
        (st.scan c.log c.valid.nodup).allowRemove = true := by
    rw [Dml.stage_isOk_iff (scan_readable c) hnamed rfl]
    refine or_congr_right ?_
    constructor
    · rintro ⟨-, hremovable⟩
      obtain ⟨r, hr⟩ := exists_mem_of_ne_nil _ h
      obtain ⟨f, hf, hlive⟩ := mem_flatMap.mp hr
      have hwhole : (st.scanFile f).path ∈ (request (everyFile c live)).wholeFiles :=
        mem_map_of_mem hf
      rcases hremovable (st.scanFile f) (Storage.mem_scan hf) hwhole with hallow | hnothing
      · exact hallow
      · rw [Storage.scanFile_visible (c.valid.describes f hf)] at hnothing
        rw [Storage.liveRows, hnothing, Storage.rowsAt_empty] at hlive
        cases hlive
    · intro hallow
      exact ⟨request_rowDeletions rfl, fun _ _ _ => .inl hallow⟩
  rw [hcommit, ← hstaged]
  constructor
  · intro hok
    rw [commitDml_of_staged c hok, hleft]
    rfl
  · exact commitDml_of_refused c

theorem bag_staged {a : Asked ν} {staged : Dml.Staged} {w : Storage.Written}
    (h : Dml.stage (st.scan c.log c.valid.nodup) (request a) = .ok (some staged))
    (hw : st.Holds c.log staged w) (hdata : st.bag w.files = (a.data.getD [] : List (Row ν)))
    (txns : List (Text × Int)) (info : Option Json) :
    st.bag (files (c.log ++ [st.entryOf c.log staged w true txns info])) = left c a := by
  rw [Storage.bag_entryOf c.valid h hw, hdata]
  rfl

end

end DeltaSwamp.Rewrite
