import DeltaSwamp.Clone.Commit

/-!
# What a clone carries over

When the version 0 a clone commits is a table with its source's contents.
-/

namespace DeltaSwamp.Clone

open Metadata List

abbrev Bytes := List UInt8

instance : Nontrivial Bytes := ⟨[], [0], by decide⟩

section
variable {lib : Vectors} {β : Type}

variable {files : List Table.AddFile}

theorem path_mem_namedPaths {f : Table.AddFile} (hf : f ∈ files) : f.path ∈ namedPaths lib files :=
  mem_flatMap.mpr ⟨f, hf, mem_cons_self⟩

theorem name_mem_namedPaths {f : Table.AddFile} (hf : f ∈ files) {v : Table.DeletionVector}
    (hv : f.deletionVector = some v) {name : Text} (hname : lib.nameOf v = some name) :
    name ∈ namedPaths lib files := by
  refine mem_flatMap.mpr ⟨f, hf, mem_cons_of_mem _ ?_⟩
  rw [hv, Option.bind_some, hname]
  exact mem_singleton.mpr rfl

theorem mem_namedPaths {p : Text} :
    p ∈ namedPaths lib files ↔ ∃ f ∈ files, p = f.path ∨
      ∃ v, f.deletionVector = some v ∧ lib.nameOf v = some p := by
  simp [namedPaths, mem_flatMap, Option.bind_eq_some_iff]

theorem mem_absoluteVectors {place : Text} :
    place ∈ absoluteVectors files ↔ ∃ f ∈ files, ∃ v, f.deletionVector = some v ∧
      v.storageType = "p".toList ∧ v.pathOrInlineDv = place := by
  simp [absoluteVectors, Option.bind_eq_some_iff]

section
variable {source : Snapshot lib} {target : TableRoot}

theorem mem_copiesMade {m : Text × Text} : m ∈ copiesMade source target ↔
    ∃ p ∈ namedPaths lib source.files, m = (join source.root p, join target p) := by
  simp [copiesMade, moves, sortedCopies, eq_comm]

theorem copiesMade_apart : ((copiesMade source target).map Prod.fst).Nodup := by
  unfold copiesMade moves
  rw [map_map]
  refine List.Nodup.map_on (fun p hp q hq hsame => ?_) ?_
  · simp only [sortedCopies, mem_insertionSort, mem_dedup] at hp hq
    exact source.oneName p hp q hq hsame
  · exact (perm_insertionSort _ _).nodup_iff.mpr (nodup_dedup _)

end

section
variable {root target : TableRoot} {o o' : Copying.Objects Text β} {v : Table.DeletionVector}

theorem carriedVector_deep (v : Table.DeletionVector) : carriedVector lib root false v = v := by
  unfold carriedVector
  cases lib.nameOf v <;> rfl

theorem vectorBytes_of_nameOf_none (h : lib.nameOf v = none) (root target : TableRoot) :
    vectorBytes lib target o v = vectorBytes lib root o v := by
  unfold vectorBytes
  by_cases hu : v.storageType = "u".toList
  · have hname : lib.name v.pathOrInlineDv = none := by
      rw [Vectors.nameOf, if_pos hu] at h
      exact h
    simp [hname]
  · rw [if_neg hu, if_neg hu]

theorem vectorBytes_of_nameOf {name : Text} (h : lib.nameOf v = some name) (root : TableRoot) :
    vectorBytes lib root o v = .stored (o (join root name)) := by
  obtain ⟨hu, hname⟩ := nameOf_eq_some_iff.mp h
  rw [vectorBytes, if_pos hu, hname, Option.bind_some]

theorem vectorBytes_absolute (h : v.storageType = "p".toList) (root : TableRoot) :
    vectorBytes lib root o v = .stored (o v.pathOrInlineDv) := by
  rw [vectorBytes, if_neg (by rw [h]; decide), if_pos h]

theorem vectorBytes_of_inline (h : lib.nameOf v = none) (hp : v.storageType ≠ "p".toList)
    (root target : TableRoot) : vectorBytes lib target o' v = vectorBytes lib root o v := by
  rw [vectorBytes_of_nameOf_none h root target]
  unfold vectorBytes
  rw [if_neg hp, if_neg hp]
  by_cases hu : v.storageType = "u".toList
  · rw [Vectors.nameOf, if_pos hu] at h
    rw [if_pos hu, if_pos hu, h]
    rfl
  · rw [if_neg hu, if_neg hu]

theorem sameVector_shallow (v : Table.DeletionVector) :
    SameVector lib root target o o v (carriedVector lib root true v) := by
  unfold carriedVector
  cases hname : lib.nameOf v with
  | none => exact ⟨vectorBytes_of_nameOf_none hname root target, rfl, rfl, rfl⟩
  | some name =>
    refine ⟨?_, rfl, rfl, rfl⟩
    rw [vectorBytes_of_nameOf hname, join_relative (nameOf_relative hname)]
    exact vectorBytes_absolute rfl target

theorem sameVector_deep_iff : SameVector lib root target o o' v v ↔
    (∀ name, lib.nameOf v = some name → o' (join target name) = o (join root name)) ∧
      (v.storageType = "p".toList → o' v.pathOrInlineDv = o v.pathOrInlineDv) := by
  have hbytes : SameVector lib root target o o' v v ↔
      vectorBytes lib target o' v = vectorBytes lib root o v :=
    ⟨SameVector.bytes, fun h => ⟨h, rfl, rfl, rfl⟩⟩
  rw [hbytes]
  cases hname : lib.nameOf v with
  | some name =>
    have hu := (nameOf_eq_some_iff.mp hname).1
    have hnotp : v.storageType ≠ "p".toList := by
      rw [hu]
      decide
    rw [vectorBytes_of_nameOf hname, vectorBytes_of_nameOf hname, VectorBytes.stored.injEq]
    constructor
    · intro h
      refine ⟨fun n hn => ?_, fun hp => absurd hp hnotp⟩
      cases hn
      exact h
    · exact fun h => h.1 name rfl
  | none =>
    by_cases hp : v.storageType = "p".toList
    · rw [vectorBytes_absolute hp, vectorBytes_absolute hp, VectorBytes.stored.injEq]
      exact ⟨fun h => ⟨nofun, fun _ => h⟩, fun h => h.2 hp⟩
    · exact ⟨fun _ => ⟨nofun, fun h => absurd h hp⟩,
        fun _ => vectorBytes_of_inline hname hp root target⟩

end

theorem rel_map {R : Table.DeletionVector → Table.DeletionVector → Prop}
    {g : Table.DeletionVector → Table.DeletionVector} {o : Option Table.DeletionVector} :
    Option.Rel R o (o.map g) ↔ ∀ v, o = some v → R v (g v) := by
  cases o with
  | none => simp
  | some v => simp

section
variable {source : Snapshot lib} {target : TableRoot} {draws : Draws}
  {o o' : Copying.Objects Text β}

/-- The file a clone's add stands for. -/
def clonedFile (source : Snapshot lib) (shallow : Bool) (draws : Draws) (f : Table.AddFile) :
    Table.AddFile :=
  (clonedAdd lib source.root shallow draws.now (source.modified f) f).toAddFile

theorem mirrors_iff {shallow : Bool} {f : Table.AddFile} :
    Mirrors lib source.root target o o' f (clonedFile source shallow draws f) ↔
      o' (join target (if shallow then absolutePath source.root f.path else f.path)) =
        o (join source.root f.path) ∧
      ∀ v, f.deletionVector = some v →
        SameVector lib source.root target o o' v (carriedVector lib source.root shallow v) := by
  constructor
  · intro h
    exact ⟨h.data, rel_map.mp h.vector⟩
  · rintro ⟨hdata, hvector⟩
    exact ⟨hdata, rel_map.mpr hvector, rfl, rfl, rfl⟩

theorem mirrors_shallow_iff {f : Table.AddFile} :
    Mirrors lib source.root target o o f (clonedFile source true draws f) ↔
      o (join target (absolutePath source.root f.path)) = o (join source.root f.path) := by
  rw [mirrors_iff]
  exact ⟨And.left, fun h => ⟨h, fun v _ => sameVector_shallow v⟩⟩

/-- A deep clone's files mirror the source's when every named object arrived,
and every vector named by its URL kept its place. -/
theorem mirrors_deep_iff :
    (∀ f ∈ source.files,
        Mirrors lib source.root target o o' f (clonedFile source false draws f)) ↔
      (∀ p ∈ namedPaths lib source.files, o' (join target p) = o (join source.root p)) ∧
      ∀ place ∈ absoluteVectors source.files, o' place = o place := by
  simp only [mirrors_iff, carriedVector_deep, sameVector_deep_iff, Bool.false_eq_true, if_false]
  constructor
  · intro h
    constructor
    · intro p hp
      obtain ⟨f, hf, rfl | ⟨v, hv, hname⟩⟩ := mem_namedPaths.mp hp
      · exact (h f hf).1
      · exact ((h f hf).2 v hv).1 p hname
    · intro place hplace
      obtain ⟨f, hf, v, hv, hp, rfl⟩ := mem_absoluteVectors.mp hplace
      exact ((h f hf).2 v hv).2 hp
  · rintro ⟨harrived, hkept⟩ f hf
    refine ⟨harrived _ (path_mem_namedPaths hf), fun v hv => ⟨fun name hname => ?_, fun hp => ?_⟩⟩
    · exact harrived name (name_mem_namedPaths hf hv hname)
    · exact hkept _ (mem_absoluteVectors.mpr ⟨f, hf, v, hv, hp, rfl⟩)

theorem files_clone (shallow : Bool) :
    Table.files [entry (cloneActions source shallow draws (clonedAdds source shallow draws))] =
      source.files.map (clonedFile source shallow draws) := by
  rw [files_cloneActions, clonedAdds, map_map]
  rfl

theorem forall₂_clone {shallow : Bool} :
    List.Forall₂ (Mirrors lib source.root target o o') source.files
        (source.files.map (clonedFile source shallow draws)) ↔
      ∀ f ∈ source.files,
        Mirrors lib source.root target o o' f (clonedFile source shallow draws f) := by
  rw [forall₂_map_right_iff, forall₂_same]

end

end

variable {lib : Vectors}

/-- Whatever is stored, a clone that returns has committed a table with the
source's contents as version 0 of the target. -/
def Clones (table : ResolvedTable) (source : Snapshot lib) (target : TableRoot) (shallow : Bool)
    (draws : Draws) : Prop :=
  ∀ (ifNotExists : Bool) (w w' : World Bytes),
    clone source shallow draws table (.storage target) false ifNotExists w = .ok (w', .cloned) →
    ∃ actions, w'.commits target.text 0 = some actions ∧
      Valid source target w.objects w'.objects actions

section
variable {table : ResolvedTable} {source : Snapshot lib} {target : TableRoot} {shallow : Bool}
  {draws : Draws} {o o' : Copying.Objects Text Bytes}

theorem apart_clone (helsewhere : source.root.text ≠ target.text)
    (hspelled : shallow = true → ∀ f ∈ source.files, ReadAsSpelled source.root target f.path) :
    ((source.files.map (clonedFile source shallow draws)).map Table.AddFile.key).Nodup := by
  have hpaths : ((source.files.map Table.AddFile.path).map fun p =>
      if shallow then absolutePath source.root p else p).Nodup := by
    refine List.Nodup.map_on (fun p hp q hq hsame => ?_) source.distinct
    cases shallow with
    | false => exact hsame
    | true =>
      obtain ⟨f, hf, rfl⟩ := mem_map.mp hp
      obtain ⟨g, hg, rfl⟩ := mem_map.mp hq
      apply source.oneName _ (path_mem_namedPaths hf) _ (path_mem_namedPaths hg)
      rw [← (join_absolutePath_iff _ _ helsewhere _).mpr (hspelled rfl f hf),
        ← (join_absolutePath_iff _ _ helsewhere _).mpr (hspelled rfl g hg)]
      exact congrArg (join target) hsame
  refine List.Nodup.of_map Prod.fst ?_
  rw [map_map, map_map]
  rw [map_map] at hpaths
  exact hpaths

theorem wellFormed_clone (helsewhere : source.root.text ≠ target.text)
    (h : Carries source target shallow) :
    WellFormed (cloneActions source shallow draws (clonedAdds source shallow draws))
      (cloneInfo source shallow draws) source.protocol (clonedMetaData source draws) where
  first := commitInfo_cloneActions source shallow draws _
  oneProtocol := protocols_cloneActions source shallow draws _
  oneMetaData := metaData_cloneActions source shallow draws _
  apart := by
    rw [files_clone]
    exact apart_clone helsewhere h.spelled
  vectors := by
    rw [files_clone]
    rintro ⟨g, hg, hvector⟩
    obtain ⟨f, hf, rfl⟩ := mem_map.mp hg
    refine source.vectors_supported ⟨f, hf, fun hnone => hvector ?_⟩
    simp [clonedFile, clonedAdd, hnone]
  domains := by
    rw [clustering_cloneActions]
    exact source.clustering_supported
  timestamped := by
    intro henabled
    have huntimed := h.untimed
    change ictEnabled source.metaData.configuration = true at henabled
    rw [henabled] at huntimed
    cases huntimed
  rowIds := by
    intro htracked
    rw [files_clone, h.untracked htracked]
    simp

theorem mirrors_of_carries (helsewhere : source.root.text ≠ target.text)
    (h : Carries source target shallow)
    (hcopied : Copying.copyAll (cloneMoves source shallow target) o = some o') :
    ∀ f ∈ source.files,
      Mirrors lib source.root target o o' f (clonedFile source shallow draws f) := by
  cases shallow with
  | true =>
    cases hcopied
    intro f hf
    rw [mirrors_shallow_iff, (join_absolutePath_iff _ _ helsewhere _).mpr (h.spelled rfl f hf)]
  | false =>
    have harrived := Copying.copyAll_of_clear (h.clear rfl) hcopied
    rw [mirrors_deep_iff]
    constructor
    · intro p hp
      exact harrived _ (mem_copiesMade.mpr ⟨p, hp, rfl⟩)
    · intro place hplace
      by_cases hmem : place ∈ (copiesMade source target).map Prod.snd
      · obtain ⟨m, hm, rfl⟩ := mem_map.mp hmem
        rw [harrived m hm, h.vectorsKept rfl m hm hplace]
      · exact Copying.copyAll_of_notMem hcopied hmem

theorem valid_of_carries (hid : draws.id ≠ source.metaData.id)
    (helsewhere : source.root.text ≠ target.text) (h : Carries source target shallow)
    (hcopied : Copying.copyAll (cloneMoves source shallow target) o = some o') :
    Valid source target o o'
      (cloneActions source shallow draws (clonedAdds source shallow draws)) where
  files := by
    rw [files_clone, forall₂_clone]
    exact mirrors_of_carries helsewhere h hcopied
  protocol := by
    rw [source.protocol_inForce]
    simp [Table.protocol, entry, protocols_cloneActions]
  clustering := clustering_cloneActions source shallow draws _
  described := by
    refine ⟨_, clonedMetaData source draws, wellFormed_clone helsewhere h, ?_, rfl, rfl, rfl, rfl,
      rfl, hid⟩
    simp [Table.metadata, entry, metaData_cloneActions]

theorem untimed_of_valid
    (h : Valid source target o o'
      (cloneActions source shallow draws (clonedAdds source shallow draws))) :
    ictEnabled source.metaData.configuration = false ∧
      (listed source.protocol "rowTracking" → source.files = []) := by
  obtain ⟨info, m, hwell, -⟩ := h.described
  obtain ⟨rest, hactions, -⟩ := hwell.first
  have hinfo : info = cloneInfo source shallow draws := by
    obtain ⟨rest', hactions', -⟩ := commitInfo_cloneActions source shallow draws
      (clonedAdds source shallow draws)
    rw [hactions'] at hactions
    cases hactions
    rfl
  have hm : m = clonedMetaData source draws := by
    have hone := hwell.oneMetaData
    rw [metaData_cloneActions] at hone
    cases hone
    rfl
  subst hinfo hm
  constructor
  · by_contra henabled
    rw [Bool.not_eq_false] at henabled
    have htimed := (hwell.timestamped henabled).1
    cases htimed
  · intro htracked
    have hids := hwell.rowIds htracked
    rw [files_clone] at hids
    apply eq_nil_iff_forall_not_mem.mpr
    intro f hf
    have hid := hids _ (mem_map_of_mem hf)
    cases hid

/-- The files of a clone made over `o` mirror the source's. -/
def Mirrored (source : Snapshot lib) (target : TableRoot) (shallow : Bool) (draws : Draws) : Prop :=
  ∀ o o' : Copying.Objects Text Bytes, (∀ place, (o place).isSome) →
    Copying.copyAll (cloneMoves source shallow target) o = some o' →
    ∀ f ∈ source.files,
      Mirrors lib source.root target o o' f (clonedFile source shallow draws f)

theorem spelled_of_mirrored (helsewhere : source.root.text ≠ target.text)
    (h : Mirrored source target true draws) :
    ∀ f ∈ source.files, ReadAsSpelled source.root target f.path := by
  intro f hf
  rw [← join_absolutePath_iff _ _ helsewhere]
  refine Copying.eq_of_same Bytes fun o hfull => ?_
  exact mirrors_shallow_iff.mp (h o o hfull rfl f hf)

theorem clear_of_mirrored (h : Mirrored source target false draws) :
    Copying.Clear (copiesMade source target) ∧ ∀ m ∈ copiesMade source target,
      m.2 ∈ absoluteVectors source.files → m.1 = m.2 := by
  have harrived : ∀ o o' : Copying.Objects Text Bytes, (∀ place, (o place).isSome) →
      Copying.copyAll (copiesMade source target) o = some o' →
      ∀ m ∈ copiesMade source target, o' m.2 = o m.1 := by
    intro o o' hfull hcopied m hm
    obtain ⟨p, hp, rfl⟩ := mem_copiesMade.mp hm
    exact (mirrors_deep_iff.mp (h o o' hfull hcopied)).1 p hp
  refine ⟨Copying.clear_of_arrives copiesMade_apart harrived, fun m hm hvector => ?_⟩
  refine Copying.eq_of_same Bytes fun o hfull => ?_
  obtain ⟨o', hcopied⟩ := Copying.exists_copyAll (copiesMade source target) hfull
  rw [← harrived o o' hfull hcopied m hm]
  exact (mirrors_deep_iff.mp (h o o' hfull hcopied)).2 m.2 hvector

/-- A store with no table in it. -/
def unused (o : Copying.Objects Text Bytes) : World Bytes := ⟨o, fun _ _ => none, fun _ => none⟩

theorem valid_of_clones (hacc : Accepted table source target shallow)
    (h : Clones table source target shallow draws)
    (hcopied : Copying.copyAll (cloneMoves source shallow target) o = some o') :
    Valid source target o o'
      (cloneActions source shallow draws (clonedAdds source shallow draws)) := by
  obtain ⟨actions, hcommitted, hvalid⟩ := h false (unused o) _
    ((clone_ok_iff hacc).mpr ⟨rfl, rfl, o', hcopied, rfl⟩)
  simp only [Function.update_self, Option.some.injEq] at hcommitted
  rw [← hcommitted] at hvalid
  exact hvalid

/-- A clone is a table with its source's contents exactly when the source turns
no in-commit timestamps on and tracks no row ids, its paths are absolute just
where they are spelled out, and a deep clone's copies stay clear of what is yet
to be read. -/
theorem clones_iff_carries (hid : draws.id ≠ source.metaData.id)
    (hacc : Accepted table source target shallow) :
    Clones table source target shallow draws ↔ Carries source target shallow := by
  constructor
  · intro h
    have hmirrored : Mirrored source target shallow draws := by
      intro o o' _ hcopied
      rw [← forall₂_clone, ← files_clone]
      exact (valid_of_clones hacc h hcopied).files
    obtain ⟨o', hcopied⟩ := Copying.exists_copyAll (cloneMoves source shallow target)
      (Copying.marked_isSome ([] : Bytes) [] [])
    obtain ⟨huntimed, huntracked⟩ := untimed_of_valid (valid_of_clones hacc h hcopied)
    cases shallow with
    | true => exact ⟨huntimed, huntracked, fun _ => spelled_of_mirrored hacc.elsewhere hmirrored,
        nofun, nofun⟩
    | false =>
      obtain ⟨hclear, hkept⟩ := clear_of_mirrored hmirrored
      exact ⟨huntimed, huntracked, nofun, fun _ => hclear, fun _ => hkept⟩
  · intro h ifNotExists w w' hclone
    obtain ⟨-, -, objects, hcopied, rfl⟩ := (clone_ok_iff hacc).mp hclone
    refine ⟨_, ?_, valid_of_carries hid hacc.elsewhere h hcopied⟩
    simp only [Function.update_self]

end

/-- The vector name the kernel decodes from a descriptor. -/
def sampleVectors : Vectors where
  name d := if d = "ab^-aqEH.-t@S\x7dK\x7bvb[*k^".toList then
    some "ab/deletion_vector_d2c639aa-8816-431a-aaf6-d3fe2512ff61.bin".toList else none
  relative := by
    intro d n h
    split_ifs at h
    cases h
    exact ⟨by decide, by decide⟩

def sampleRoot (name : Text) : TableRoot where
  origin := "s3://bucket".toList
  path := '/' :: name ++ ['/']
  absolute := by decide
  spelled := by decide
  slash := rfl

def sampleFile : Table.AddFile where
  path := "day=1/part-0.parquet".toList
  partitionValues := [("day", some "1")]
  size := 10
  dataChange := true
  stats := none
  numRecords := none
  tags := []
  deletionVector := some ⟨"u".toList, "ab^-aqEH.-t@S\x7dK\x7bvb[*k^".toList, some 1, 36, 2⟩
  baseRowId := none
  defaultRowCommitVersion := none

/-- One file with a vector, under the given properties. -/
def sampleSource (configuration : Config) : Snapshot sampleVectors where
  root := sampleRoot "source".toList
  log := [⟨[sampleFile], [], some ⟨"old", "schema", ["day"], configuration⟩,
    some ⟨3, 7, some ["deletionVectors"], some ["deletionVectors"]⟩, [], none⟩]
  protocol := ⟨3, 7, some ["deletionVectors"], some ["deletionVectors"]⟩
  metaData := ⟨⟨"old", "schema", ["day"], configuration⟩, none, none, none⟩
  clustering := none
  modified _ := some 5
  protocol_inForce := rfl
  metaData_inForce := rfl
  named := by
    intro f hf v hv hu
    simp [Table.files, Table.reconcile] at hf
    subst hf
    cases hv
    decide
  distinct := by
    change [sampleFile.path].Nodup
    decide
  vectors_supported := fun _ => by decide
  clustering_supported := nofun
  oneName := by
    change ∀ p ∈ namedPaths sampleVectors [sampleFile], ∀ q ∈ namedPaths sampleVectors [sampleFile],
      join (sampleRoot "source".toList) p = join (sampleRoot "source".toList) q → p = q
    decide

def sampleTable : ResolvedTable := ⟨["deletionVectors"], ["deletionVectors"], false, false, false⟩

def sampleDraws : Draws := ⟨7, "new", "txn"⟩

theorem sample_accepted (configuration : Config) (shallow : Bool) :
    Accepted sampleTable (sampleSource configuration) (sampleRoot "target".toList) shallow where
  notRefused := by cases shallow <;> decide
  elsewhere := by
    change (sampleRoot "source".toList).text ≠ (sampleRoot "target".toList).text
    decide
  ownFiles := by
    intro _ f hf
    change f ∈ [sampleFile] at hf
    rw [mem_singleton.mp hf]
    decide

/-- A clone of a source with in-commit timestamps on has none in its version 0. -/
theorem clone_untimed :
    Accepted sampleTable (sampleSource [("delta.enableInCommitTimestamps", "true")])
      (sampleRoot "target".toList) true ∧
    ¬ Clones sampleTable (sampleSource [("delta.enableInCommitTimestamps", "true")])
      (sampleRoot "target".toList) true sampleDraws := by
  refine ⟨sample_accepted _ _, fun h => ?_⟩
  have hvalid := valid_of_clones (o := fun _ => none) (sample_accepted _ _) h rfl
  have huntimed := (untimed_of_valid hvalid).1
  revert huntimed
  decide

theorem clones_deep :
    Clones sampleTable (sampleSource [("delta.appendOnly", "true")]) (sampleRoot "target".toList)
      false sampleDraws := by
  refine (clones_iff_carries (by decide) (sample_accepted _ _)).mpr ⟨by decide, ?_, nofun, ?_, ?_⟩
  · exact fun h => absurd h (by decide)
  · unfold Copying.Clear
    exact fun _ => by decide
  · exact fun _ => by decide

end DeltaSwamp.Clone
