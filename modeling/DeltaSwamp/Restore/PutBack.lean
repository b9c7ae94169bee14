import DeltaSwamp.Restore.Files

/-!
# What a RESTORE leaves

The live files after it are the target's, but for those to put back that are
missing from storage. Where ids were never given out twice, they are not given
out twice by it either.
-/

namespace DeltaSwamp.Restore

open Table Result List

section
variable {ρ : Type} {st : Storage ρ} {h : History} {target : Nat} {missing : AddFile → Bool}
  {ignoreMissing : Bool} {metaData : Option TableMetadata} {c : Commit}

theorem Tracking.unassigned (now fs : List AddFile) (start : Ids) :
    Tracking st now fs fs start start where
  keys := rfl
  le := le_refl _
  unmoved := fun _ => rfl
  same := by
    intro f hf
    refine ⟨f, hf, ⟨rfl, rfl, rfl, rfl, rfl, rfl, rfl, fun _ => rfl, fun _ _ => rfl⟩, ?_⟩
    cases hbase : f.baseRowId with
    | some base => exact .inl (by simp [hbase])
    | none =>
      right; right
      intro i hi
      simp [ids, hbase] at hi
  apart := pairwise_of_forall_mem_list fun f hf _ _ =>
    .inl ⟨f, mem_append_left _ hf, rfl, rfl⟩

/-- The files of the target that are not live and not missing. -/
def restoredFiles (h : History) (target : Nat) (missing : AddFile → Bool) : List AddFile :=
  (wanted h target).filter fun f => !missing f

/-- The state of the loop at its start. -/
def startIds (h : History) : Ids := ⟨highWaterMark h, false⟩

variable {f : AddFile}

theorem present_ok {restored : List AddFile}
    (hok : present h target missing ignoreMissing = .ok restored) :
    restored = restoredFiles h target missing := by
  unfold present at hok
  rw [restoredFiles]
  cases hmissing : (wanted h target).find? missing with
  | some f =>
    rw [hmissing] at hok
    dsimp only at hok
    split_ifs at hok
    cases hok
    rfl
  | none =>
    rw [hmissing] at hok
    cases hok
    symm
    rw [filter_eq_self]
    intro f hf
    simpa using List.find?_eq_none.mp hmissing f hf

theorem withRowIds_ok (hvalid : ValidLog st h.log) {adds : List AddFile} {after : Ids}
    (hok : withRowIds h (restoredFiles h target missing) = .ok (adds, after)) :
    Tracking st (files h.log) (restoredFiles h target missing) adds (startIds h) after := by
  unfold withRowIds at hok
  split_ifs at hok with htracking
  · refine tracked_ok hok fun f hf => ?_
    obtain ⟨g, hg, -, rfl⟩ := mem_wanted.mp (mem_filter.mp hf).1
    have hdescribes := (hvalid (target + 1)).describes g hg
    exact ⟨hdescribes.numRecords, hdescribes.hidden⟩
  · cases hok
    exact .unassigned _ _ _

theorem restoreChange_ok (hvalid : ValidLog st h.log)
    (hok : restoreChange h target missing ignoreMissing metaData = .ok c) :
    c.entry.removes = ((files h.log).filter fun f =>
      f.key ∉ (targetFiles h target).map AddFile.key).map AddFile.key ∧
    ∃ after, Tracking st (files h.log) (restoredFiles h target missing) c.entry.adds (startIds h)
      after ∧ c.mark = if after.moved then some (.set after.high) else none := by
  unfold restoreChange at hok
  dsimp only at hok
  obtain ⟨restored, hrestored, hok⟩ := bind_eq_ok_iff.mp hok
  obtain ⟨assigned, hassigned, hok⟩ := bind_eq_ok_iff.mp hok
  cases hok
  obtain rfl := present_ok hrestored
  exact ⟨rfl, assigned.2, withRowIds_ok hvalid hassigned, rfl⟩

theorem highWaterMark_append (h : History) (c : Commit) :
    highWaterMark (h ++ [c]) = c.markAfter (highWaterMark h) := by
  simp [highWaterMark]

theorem loop_restore (hvalid : ValidLog st h.log)
    (hok : restoreChange h target missing ignoreMissing metaData = .ok c) :
    ∃ after, Tracking st (files h.log) (restoredFiles h target missing) c.entry.adds (startIds h)
      after ∧ highWaterMark (h ++ [c]) = after.high := by
  obtain ⟨-, after, htracking, hmark⟩ := restoreChange_ok hvalid hok
  refine ⟨after, htracking, ?_⟩
  rw [highWaterMark_append, Commit.markAfter, hmark]
  cases hmoved : after.moved with
  | true => simp
  | false =>
    rw [htracking.unmoved hmoved]
    simp [startIds]

theorem restored_notLive (hf : f ∈ restoredFiles h target missing) :
    f.key ∉ (files h.log).map AddFile.key ∧ f.key ∈ (targetFiles h target).map AddFile.key := by
  obtain ⟨g, hg, hnot, rfl⟩ := mem_wanted.mp (mem_filter.mp hf).1
  exact ⟨hnot, mem_map.mpr ⟨g, hg, rfl⟩⟩

/-- The files after the commit: those of the target that were live, and those put back. -/
theorem files_restore (hvalid : ValidLog st h.log)
    (hok : restoreChange h target missing ignoreMissing metaData = .ok c) :
    files (h.log ++ [c.entry]) = ((files h.log).filter fun f =>
      f.key ∈ (targetFiles h target).map AddFile.key) ++ c.entry.adds := by
  obtain ⟨hremoves, after, htracking, -⟩ := restoreChange_ok hvalid hok
  rw [files_append, reconcile]
  congr 1
  refine filter_congr fun f hf => ?_
  have hlive : f.key ∉ c.entry.adds.map AddFile.key := by
    rw [htracking.keys]
    intro hmem
    obtain ⟨g, hg, hkey⟩ := mem_map.mp hmem
    exact (restored_notLive hg).1 (hkey ▸ mem_map_of_mem hf)
  have hremoved : f.key ∉ c.entry.removes ↔ f.key ∈ (targetFiles h target).map AddFile.key := by
    rw [hremoves]
    constructor
    · intro hkept
      by_contra hgone
      exact hkept (mem_map_of_mem (mem_filter.mpr ⟨hf, by simpa using hgone⟩))
    · intro hkept hmem
      obtain ⟨g, hg, hkey⟩ := mem_map.mp hmem
      have hgone := (mem_filter.mp hg).2
      rw [decide_eq_true_eq, hkey] at hgone
      exact hgone hkept
  exact decide_eq_decide.mpr ⟨fun hboth => hremoved.mp hboth.1, fun hkept =>
    ⟨hremoved.mpr hkept, hlive⟩⟩

theorem keys_restore (hvalid : ValidLog st h.log)
    (hok : restoreChange h target missing ignoreMissing metaData = .ok c) (k : FileKey) :
    k ∈ (files (h.log ++ [c.entry])).map AddFile.key ↔ ∃ g ∈ targetFiles h target,
      g.key = k ∧ (k ∈ (files h.log).map AddFile.key ∨ missing (addBack g) = false) := by
  obtain ⟨-, after, htracking, -⟩ := restoreChange_ok hvalid hok
  rw [files_restore hvalid hok, map_append, mem_append, htracking.keys]
  constructor
  · rintro (hlive | hback)
    · obtain ⟨f, hf, rfl⟩ := mem_map.mp hlive
      obtain ⟨hf, htarget⟩ := mem_filter.mp hf
      rw [decide_eq_true_eq] at htarget
      obtain ⟨g, hg, hkey⟩ := mem_map.mp htarget
      exact ⟨g, hg, hkey, .inl (mem_map_of_mem hf)⟩
    · obtain ⟨f, hf, rfl⟩ := mem_map.mp hback
      obtain ⟨hwanted, hpresent⟩ := mem_filter.mp hf
      obtain ⟨g, hg, -, rfl⟩ := mem_wanted.mp hwanted
      exact ⟨g, hg, rfl, .inr (by simpa using hpresent)⟩
  · rintro ⟨g, hg, rfl, hcase⟩
    by_cases hlive : g.key ∈ (files h.log).map AddFile.key
    · obtain ⟨f, hf, hkey⟩ := mem_map.mp hlive
      refine .inl (mem_map.mpr ⟨f, mem_filter.mpr ⟨hf, ?_⟩, hkey⟩)
      rw [decide_eq_true_eq, hkey]
      exact mem_map_of_mem hg
    · have hpresent := hcase.resolve_left hlive
      refine .inr (mem_map.mpr ⟨addBack g, mem_filter.mpr ⟨?_, ?_⟩, rfl⟩)
      · exact mem_wanted.mpr ⟨g, hg, hlive, rfl⟩
      · simp [hpresent]

theorem adds_restore (hvalid : ValidLog st h.log)
    (hok : restoreChange h target missing ignoreMissing metaData = .ok c) :
    ∀ f ∈ c.entry.adds, ∃ g ∈ targetFiles h target, g.key ∉ (files h.log).map AddFile.key ∧
      SameFile g f ∧
      HasIds st (files h.log) (highWaterMark h) (highWaterMark (h ++ [c])) g f := by
  obtain ⟨after, htracking, hmark⟩ := loop_restore hvalid hok
  intro f hf
  obtain ⟨k, hk, hsame, hids⟩ := htracking.same f hf
  obtain ⟨g, hg, hnot, rfl⟩ := mem_wanted.mp (mem_filter.mp hk).1
  rw [hmark]
  exact ⟨g, hg, hnot, ⟨hsame.key, hsame.vector, hsame.size, hsame.partitionValues, hsame.stats,
    hsame.numRecords, hsame.tags, hsame.baseRowId, hsame.commitVersion⟩, hids⟩

theorem valid_restore (hvalid : ValidLog st h.log)
    (hok : restoreChange h target missing ignoreMissing metaData = .ok c) :
    st.Valid (h.log ++ [c.entry]) := by
  obtain ⟨-, after, htracking, -⟩ := restoreChange_ok hvalid hok
  have hnow := hvalid.whole
  have hpast : st.Valid (h.log.take (target + 1)) := hvalid (target + 1)
  have hadds := adds_restore hvalid hok
  constructor
  · rw [files_restore hvalid hok, map_append, nodup_append]
    refine ⟨hnow.nodup.sublist (filter_sublist.map _), ?_, ?_⟩
    · have hpaths : ∀ fs : List AddFile, fs.map AddFile.path =
          (fs.map AddFile.key).map Prod.fst := fun fs => by rw [map_map]; rfl
      rw [hpaths, htracking.keys, ← hpaths]
      have hwanted : (wanted h target).map AddFile.path = ((targetFiles h target).filter fun f =>
          f.key ∉ (files h.log).map AddFile.key).map AddFile.path := by
        rw [wanted, map_map]
        rfl
      have hnodup : ((wanted h target).map AddFile.path).Nodup := by
        rw [hwanted]
        exact hpast.nodup.sublist (filter_sublist.map _)
      exact hnodup.sublist (filter_sublist.map _)
    · rintro p hp _ hp' rfl
      obtain ⟨f, hf, rfl⟩ := mem_map.mp hp
      obtain ⟨f', hf', hpath⟩ := mem_map.mp hp'
      obtain ⟨hf, htarget⟩ := mem_filter.mp hf
      rw [decide_eq_true_eq] at htarget
      obtain ⟨g, hg, hkey⟩ := mem_map.mp htarget
      obtain ⟨g', hg', hnot, hsame, -⟩ := hadds f' hf'
      have hpath' : g'.path = g.path := by
        rw [← hsame.path, hpath]
        exact (congrArg Prod.fst hkey).symm
      obtain rfl := inj_on_of_nodup_map hpast.nodup hg' hg hpath'
      exact hnot (hkey ▸ mem_map_of_mem hf)
  · intro f hf
    rw [files_restore hvalid hok] at hf
    rcases mem_append.mp hf with hf | hf
    · exact hnow.describes f (mem_filter.mp hf).1
    · obtain ⟨g, hg, -, hsame, -⟩ := hadds f hf
      have hdescribes := hpast.describes g hg
      refine ⟨?_, ?_⟩
      · rw [hsame.numRecords, hsame.path]
        exact hdescribes.numRecords
      · rw [Storage.hiddenRows, hsame.vector, hsame.path]
        exact hdescribes.hidden

/-- Ids are given out once: files of two paths never had one in common, in one
version or two, and the mark is above every id given out. -/
structure Tracked (st : Storage ρ) (h : History) : Prop where
  apart : ∀ m n, ∀ f ∈ files (h.log.take m), ∀ g ∈ files (h.log.take n), f.path ≠ g.path →
    Disjoint (ids st f) (ids st g)
  covered : ∀ n, ∀ f ∈ files (h.log.take n), ∀ i ∈ ids st f, i ≤ highWaterMark h

theorem take_min (log : Log) (n : Nat) : log.take (min n log.length) = log.take n := by
  by_cases hn : n ≤ log.length
  · rw [Nat.min_eq_left hn]
  · rw [Nat.min_eq_right (by omega), take_length, take_of_length_le (by omega)]

instance (h : History) : Decidable (Tracked st h) :=
  decidable_of_iff
    ((∀ m < h.log.length + 1, ∀ n < h.log.length + 1, ∀ f ∈ files (h.log.take m),
        ∀ g ∈ files (h.log.take n), f.path ≠ g.path → Disjoint (ids st f) (ids st g)) ∧
      ∀ n < h.log.length + 1, ∀ f ∈ files (h.log.take n), ∀ i ∈ ids st f, i ≤ highWaterMark h)
    ⟨fun hall => ⟨fun m n f hf g hg hpath => hall.1 (min m h.log.length) (by omega)
          (min n h.log.length) (by omega) f (by rwa [take_min]) g (by rwa [take_min]) hpath,
        fun n f hf i hi => hall.2 (min n h.log.length) (by omega) f (by rwa [take_min]) i hi⟩,
      fun ht => ⟨fun m _ n _ => ht.apart m n, fun n _ => ht.covered n⟩⟩

/-- The ids are those of a file of the path in some version. -/
def Ever (st : Storage ρ) (h : History) (f : AddFile) : Prop :=
  ∃ n, OldIds st (files (h.log.take n)) f

theorem ever_now (hf : f ∈ files h.log) : Ever st h f := by
  refine ⟨h.log.length, f, ?_, rfl, rfl⟩
  rwa [take_length]

theorem ever_of_oldIds (hold : OldIds st (restoredFiles h target missing ++ files h.log) f) :
    Ever st h f := by
  obtain ⟨k, hk, hpath, hids⟩ := hold
  rcases mem_append.mp hk with hk | hk
  · obtain ⟨g, hg, -, rfl⟩ := mem_wanted.mp (mem_filter.mp hk).1
    exact ⟨target + 1, g, hg, hpath, hids⟩
  · have hever : Ever st h k := ever_now hk
    obtain ⟨n, g, hg, hpath', hids'⟩ := hever
    exact ⟨n, g, hg, hpath'.trans hpath, hids.trans hids'⟩

theorem Tracked.apart_ever (ht : Tracked st h) {g : AddFile} (hf : Ever st h f) (hg : Ever st h g)
    (hpath : f.path ≠ g.path) : Disjoint (ids st f) (ids st g) := by
  obtain ⟨m, f', hf', hfpath, hfids⟩ := hf
  obtain ⟨n, g', hg', hgpath, hgids⟩ := hg
  rw [hfids, hgids]
  exact ht.apart m n f' hf' g' hg' (by rwa [hfpath, hgpath])

theorem Tracked.covered_ever (ht : Tracked st h) (hf : Ever st h f) {i : Int} (hi : i ∈ ids st f) :
    i ≤ highWaterMark h := by
  obtain ⟨n, f', hf', -, hids⟩ := hf
  exact ht.covered n f' hf' i (hids ▸ hi)

theorem fresh_restore (hvalid : ValidLog st h.log)
    (hok : restoreChange h target missing ignoreMissing metaData = .ok c) (hf : f ∈ c.entry.adds) :
    Ever st h f ∨ NewIds st (highWaterMark h) (highWaterMark (h ++ [c])) f := by
  obtain ⟨g, hg, -, hsame, hassigned⟩ := adds_restore hvalid hok f hf
  rcases hassigned.old_or_new hsame with ⟨k, hk, hpath, hids⟩ | hnew
  · left
    rcases mem_cons.mp hk with rfl | hk
    · exact ⟨target + 1, k, hg, hpath, hids⟩
    · have hever : Ever st h k := ever_now hk
      obtain ⟨n, q, hq, hpath', hids'⟩ := hever
      exact ⟨n, q, hq, hpath'.trans hpath, hids.trans hids'⟩
  · exact .inr hnew

theorem mem_version {n : Nat} (hvalid : ValidLog st h.log)
    (hok : restoreChange h target missing ignoreMissing metaData = .ok c)
    (hf : f ∈ files ((h.log ++ [c.entry]).take n)) : Ever st h f ∨ f ∈ c.entry.adds := by
  by_cases hn : n ≤ h.log.length
  · rw [take_append_of_le_length hn] at hf
    exact .inl ⟨n, f, hf, rfl, rfl⟩
  · have hlen : (h.log ++ [c.entry]).length ≤ n := by
      rw [length_append, length_singleton]
      omega
    rw [take_of_length_le hlen, files_restore hvalid hok] at hf
    rcases mem_append.mp hf with hf | hf
    · exact .inl (ever_now (mem_filter.mp hf).1)
    · exact .inr hf

theorem mark_le (hvalid : ValidLog st h.log)
    (hok : restoreChange h target missing ignoreMissing metaData = .ok c) :
    highWaterMark h ≤ highWaterMark (h ++ [c]) := by
  obtain ⟨after, htracking, hmark⟩ := loop_restore hvalid hok
  rw [hmark]
  exact htracking.le

theorem apart_adds (hvalid : ValidLog st h.log) (ht : Tracked st h)
    (hok : restoreChange h target missing ignoreMissing metaData = .ok c) {g : AddFile}
    (hf : f ∈ c.entry.adds) (hg : Ever st h g) (hpath : f.path ≠ g.path) :
    Disjoint (ids st f) (ids st g) := by
  rcases fresh_restore hvalid hok hf with hold | hnew
  · exact ht.apart_ever hold hg hpath
  · rw [Finset.disjoint_left]
    intro i hi hi'
    have hlow := (hnew i hi).1
    have hhigh := ht.covered_ever hg hi'
    omega

theorem tracked_restore (hvalid : ValidLog st h.log) (ht : Tracked st h)
    (hok : restoreChange h target missing ignoreMissing metaData = .ok c) :
    Tracked st (h ++ [c]) := by
  have hlog : History.log (h ++ [c]) = h.log ++ [c.entry] := by simp [History.log]
  have hle := mark_le hvalid hok
  constructor
  · intro m n f hf g hg hpath
    rw [hlog] at hf hg
    rcases mem_version hvalid hok hf with hf | hf
    · rcases mem_version hvalid hok hg with hg | hg
      · exact ht.apart_ever hf hg hpath
      · exact (apart_adds hvalid ht hok hg hf hpath.symm).symm
    · rcases mem_version hvalid hok hg with hg | hg
      · exact apart_adds hvalid ht hok hf hg hpath
      · obtain ⟨after, htracking, -⟩ := loop_restore hvalid hok
        have hsymm : Std.Symm fun f f' : AddFile =>
            Ever st h f ∨ Ever st h f' ∨ Disjoint (ids st f) (ids st f') := by
          refine ⟨fun a b hab => ?_⟩
          rcases hab with ha | hb | hapart
          · exact .inr (.inl ha)
          · exact .inl hb
          · exact .inr (.inr hapart.symm)
        have hpairs : c.entry.adds.Pairwise fun f f' =>
            Ever st h f ∨ Ever st h f' ∨ Disjoint (ids st f) (ids st f') :=
          htracking.apart.imp fun hab => hab.imp ever_of_oldIds (Or.imp_left ever_of_oldIds)
        have hne : f ≠ g := fun heq => hpath (congrArg AddFile.path heq)
        rcases hpairs.forall hf hg hne with hold | hold | hapart
        · exact (apart_adds hvalid ht hok hg hold hpath.symm).symm
        · exact apart_adds hvalid ht hok hf hold hpath
        · exact hapart
  · intro n f hf i hi
    rw [hlog] at hf
    rcases mem_version hvalid hok hf with hf | hf
    · exact (ht.covered_ever hf hi).trans hle
    · rcases fresh_restore hvalid hok hf with hold | hnew
      · exact (ht.covered_ever hold hi).trans hle
      · exact (hnew i hi).2

/-- The target's files are back, less those to put back that are missing, with
what they had there, and the mark does not go back. Ids given out once still are. -/
structure PutBack (st : Storage ρ) (h : History) (target : Nat) (missing : AddFile → Bool)
    (c : Commit) : Prop where
  keys : ∀ k, k ∈ (files (h.log ++ [c.entry])).map AddFile.key ↔ ∃ g ∈ targetFiles h target,
    g.key = k ∧ (k ∈ (files h.log).map AddFile.key ∨ missing (addBack g) = false)
  contents : ∀ f ∈ c.entry.adds, ∃ g ∈ targetFiles h target, SameFile g f ∧
    HasIds st (files h.log) (highWaterMark h) (highWaterMark (h ++ [c])) g f
  valid : st.Valid (h.log ++ [c.entry])
  mark : highWaterMark h ≤ highWaterMark (h ++ [c])
  tracked : Tracked st h → Tracked st (h ++ [c])

/-- A restore puts the target back. So does one computed again after a lost
race, whatever was committed since: the files left are the same, where a
missing file is live in both cases or in neither. -/
theorem restore_putsBack (hvalid : ValidLog st h.log)
    (hok : restoreChange h target missing ignoreMissing metaData = .ok c) :
    PutBack st h target missing c ∧
    ∀ (h' : History) (metaData' : Option TableMetadata) (c' : Commit), ValidLog st h'.log →
      h'.log.take (target + 1) = h.log.take (target + 1) →
      restoreChange h' target missing ignoreMissing metaData' = .ok c' →
      (∀ g ∈ targetFiles h target, missing (addBack g) = true →
        (g.key ∈ (files h.log).map AddFile.key ↔ g.key ∈ (files h'.log).map AddFile.key)) →
      ∀ k, k ∈ (files (h'.log ++ [c'.entry])).map AddFile.key ↔
        k ∈ (files (h.log ++ [c.entry])).map AddFile.key := by
  constructor
  · refine ⟨keys_restore hvalid hok, fun f hf => ?_, valid_restore hvalid hok, mark_le hvalid hok,
      fun ht => tracked_restore hvalid ht hok⟩
    obtain ⟨g, hg, -, hcontents⟩ := adds_restore hvalid hok f hf
    exact ⟨g, hg, hcontents⟩
  · intro h' metaData' c' hvalid' hpast hok' hmissing k
    have htarget : targetFiles h' target = targetFiles h target := congrArg files hpast
    rw [keys_restore hvalid' hok', keys_restore hvalid hok, htarget]
    refine exists_congr fun g => and_congr_right fun hg => and_congr_right fun hkey => ?_
    subst hkey
    cases hgone : missing (addBack g) with
    | false => simp
    | true => simp only [hmissing g hg hgone]

end

def idFile (name : Char) (base : Option Int) : AddFile :=
  { path := [name], partitionValues := [], size := 10, dataChange := true, stats := none,
    numRecords := some 2, tags := [], deletionVector := none, baseRowId := base,
    defaultRowCommitVersion := some 0 }

def idStorage : Storage Nat := ⟨fun _ => [1, 2], fun _ => ∅⟩

def idCommit (adds : List AddFile) (removes : List FileKey) (mark : Option MarkAction) : Commit :=
  ⟨{ adds, removes, metaData := none, txns := [], commitInfo := none,
     protocol := some ⟨1, 7, none, some ["domainMetadata", "rowTracking"]⟩ }, mark⟩

/-- A table that tracks rows from its first version, emptied since. -/
def emptied : History :=
  [idCommit [idFile 'a' (some 0), idFile 'b' none] [] (some (.set 1)),
    idCommit [] [(['a'], none), (['b'], none)] none]

/-- One file comes back with its ids, the other with new ones. -/
def emptiedRestored : Commit :=
  ⟨{ adds := [idFile 'a' (some 0), idFile 'b' (some 2)], removes := [], metaData := none,
     protocol := none, txns := [], commitInfo := none }, some (.set 3)⟩

theorem restore_putsBack_emptied :
    PutBack idStorage emptied 0 (fun _ => false) emptiedRestored ∧
      Tracked idStorage (emptied ++ [emptiedRestored]) := by
  have hok : restoreChange emptied 0 (fun _ => false) false none = .ok emptiedRestored := rfl
  have hvalid : ValidLog idStorage emptied.log := by decide
  have hback := (restore_putsBack hvalid hok).1
  exact ⟨hback, hback.tracked (by decide)⟩

/-- A table that stopped tracking rows, and began again. -/
def restarted : History :=
  [idCommit [idFile 'a' (some 0), idFile 'b' (some 2)] [] (some (.set 3)),
    idCommit [idFile 'b' none] [(['a'], none)] (some .removed),
    idCommit [idFile 'b' (some 0)] [] (some (.set 1))]

/-- Ids apart in every version, and below the mark of each, are given out twice;
and a file that is live now and missing stays. -/
theorem restore_repeats_ids :
    (¬ ∀ (st : Storage Nat) (h : History) (target : Nat) (c : Commit), ValidLog st h.log →
      (∀ n < h.length + 1, ∀ f ∈ files (h.log.take n), ∀ g ∈ files (h.log.take n),
        f.path ≠ g.path → Disjoint (ids st f) (ids st g)) →
      (∀ n < h.length + 1, ∀ f ∈ files (h.log.take n), ∀ i ∈ ids st f,
        i ≤ highWaterMark (h.take n)) →
      restoreChange h target (fun _ => false) false none = .ok c →
      ∀ f ∈ files (h.log ++ [c.entry]), ∀ g ∈ files (h.log ++ [c.entry]),
        f.path ≠ g.path → Disjoint (ids st f) (ids st g)) ∧
    ¬ ∀ (st : Storage Nat) (h : History) (target : Nat) (missing : AddFile → Bool) (c : Commit),
      ValidLog st h.log → restoreChange h target missing true none = .ok c →
      ∀ k, k ∈ (files (h.log ++ [c.entry])).map AddFile.key ↔
        ∃ g ∈ targetFiles h target, g.key = k ∧ missing (addBack g) = false := by
  constructor
  · intro hall
    have happart := hall idStorage restarted 0 _ (by decide) (by decide) (by decide) rfl
    revert happart
    decide
  · intro hall
    have hkeys := hall idStorage restarted 0 (fun f => f.path = ['b']) _ (by decide) rfl
      (['b'], none)
    revert hkeys
    decide

end DeltaSwamp.Restore
