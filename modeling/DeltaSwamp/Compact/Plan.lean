import DeltaSwamp.Table.Log

/-!
# Planning a compaction

`_plan_compaction` and `_zorder_plan`: the bins of files an OPTIMIZE rewrites
together. Every file of a bin is one the plan considered, and no file is in
two bins.
-/

namespace DeltaSwamp.Compact

open Table List

/-- `_PlanOptions`, with the target size and the memory bound of an output file. -/
structure PlanOptions where
  target : Nat
  minFileSize : Nat
  minCubeSize : Nat
  full : Bool
  maxFileBytes : Nat
  deriving DecidableEq

/-- A file as the plan packs it. -/
structure Member where
  path : Path
  size : Nat
  /-- Whether it has a deletion vector. -/
  vectored : Bool
  /-- Its live rows, by its statistics. -/
  live : Option Int
  /-- The Z-order cube it belongs to. -/
  cube : Option Text
  deriving DecidableEq

abbrev PartitionKey := List (String × Option String)

/-- `_Bin`. -/
structure Bin where
  key : PartitionKey
  paths : List Path
  sizes : List Nat
  expectedRows : Option Int
  deriving DecidableEq

def partitionKey (f : AddFile) : PartitionKey :=
  f.partitionValues.insertionSort fun a b => a.1 ≤ b.1

/-- The order of partitions: by name, NULL last, then by value. -/
def leKey : PartitionKey → PartitionKey → Bool
  | [], _ => true
  | _ :: _, [] => false
  | (n, v) :: a, (m, u) :: b =>
    if n ≠ m then n < m
    else if v.isNone ≠ u.isNone then u.isNone
    else if v.getD "" ≠ u.getD "" then v.getD "" < u.getD ""
    else leKey a b

section
variable (cubeOf : AddFile → Option Text)

def member (f : AddFile) : Member where
  path := f.path
  size := f.size
  vectored := f.deletionVector.isSome
  live := f.numRecords.map fun n =>
    (n : Int) - (f.deletionVector.map DeletionVector.cardinality).getD 0
  cube := cubeOf f

def sizeOf (members : List Member) : Nat := (members.map Member.size).sum

/-- The sum, unless one is not known. -/
def sumKnown (counts : List (Option Int)) : Option Int :=
  if counts.any Option.isNone then none else some (counts.filterMap id).sum

def Bin.of (key : PartitionKey) (members : List Member) : Bin where
  key := key
  paths := members.map Member.path
  sizes := members.map Member.size
  expectedRows := sumKnown (members.map Member.live)

/-- `_no_fewer_files`. -/
def noFewerFiles (options : PlanOptions) (width : Nat) (group : List Member) : Bool :=
  (sumKnown (group.map Member.live)).any fun rows =>
    (group.length : Int) ≤ -((-(rows * width)) / max 1 (options.maxFileBytes : Int))

/-- The greedy packing of files sorted by size; `current` is the group being filled. -/
def pack (options : PlanOptions) : List Member → List Member → List (List Member)
  | [], current => if current = [] then [] else [current]
  | m :: rest, current =>
    if options.minFileSize ≤ m.size ∧ m.vectored = false then pack options rest current
    else if current ≠ [] ∧ options.target < sizeOf current + m.size then
      current :: pack options rest [m]
    else pack options rest (current ++ [m])

/-- Whether a packed group is rewritten. -/
def worthwhile (options : PlanOptions) (width : Nat) (group : List Member) : Bool :=
  !(group.length = 1 && group.all fun m => !m.vectored) &&
    !((group.all fun m => !m.vectored) && noFewerFiles options width group)

/-- Each value once, where it is first seen. -/
def firstSeen {α : Type} [DecidableEq α] (xs : List α) : List α := xs.reverse.dedup.reverse

/-- The cube a file stays in: none once a vector has touched it. -/
def Member.settled (m : Member) : Option Text := if m.vectored then none else m.cube

/-- `_zorder_plan`. -/
def zorderPlan (options : PlanOptions) (members : List Member) : List Member :=
  let loose := members.filter fun m => m.settled.isNone
  let cubes := (firstSeen (members.filterMap Member.settled)).map fun cube =>
    members.filter fun m => m.settled = some cube
  let small := cubes.filter fun files => sizeOf files < options.minCubeSize
  if loose = [] ∧ small.length ≤ 1 then [] else loose ++ small.flatten

/-- The groups of one partition. -/
def groups (options : PlanOptions) (width : Nat) (ordered : Bool) (members : List Member) :
    List (List Member) :=
  if ordered then
    [if options.full then members else zorderPlan options members].filter fun g => g ≠ []
  else
    (pack options (members.insertionSort fun a b => a.size ≤ b.size) []).filter
      (worthwhile options width)

/-- The files a plan considers. -/
def considered (keep : List (String × Option String) → Bool) (exclude : List Path)
    (fs : List AddFile) : List AddFile :=
  fs.filter fun f => f.path ∉ exclude ∧ keep f.partitionValues

/-- `_plan_compaction`: `keep` tests the partition filters, `width` is a row's decoded size. -/
def planCompaction (options : PlanOptions) (width : Nat) (ordered : Bool)
    (keep : List (String × Option String) → Bool) (exclude : List Path) (fs : List AddFile) :
    List Bin :=
  let files := considered keep exclude fs
  let keys := (files.map partitionKey).dedup.insertionSort fun a b => leKey a b
  keys.flatMap fun key =>
    (groups options width ordered ((files.filter fun f => partitionKey f = key).map
      (member cubeOf))).map (Bin.of key)

/-- The files of the bins, in order. -/
def binPaths (bins : List Bin) : List Path := bins.flatMap Bin.paths

theorem pack_sublist (options : PlanOptions) (rest current : List Member) :
    (pack options rest current).flatten.Sublist (current ++ rest) := by
  induction rest generalizing current with
  | nil =>
    unfold pack
    split_ifs with hcurrent
    · simp
    · simp
  | cons m rest ih =>
    unfold pack
    split_ifs
    · exact (ih current).trans
        (List.Sublist.append_left (sublist_cons_self m rest) current)
    · rw [flatten_cons]
      exact List.Sublist.append_left (by simpa using ih [m]) current
    · simpa using ih (current ++ [m])

theorem pack_ne_nil (options : PlanOptions) (rest current : List Member) :
    ∀ group ∈ pack options rest current, group ≠ [] := by
  induction rest generalizing current with
  | nil =>
    unfold pack
    split_ifs with hcurrent
    · simp
    · simpa using hcurrent
  | cons m rest ih =>
    unfold pack
    split_ifs with hlarge hfull
    · exact ih current
    · intro group hgroup
      rcases mem_cons.mp hgroup with rfl | hgroup
      · exact hfull.1
      · exact ih [m] group hgroup
    · exact ih (current ++ [m])

theorem nodup_firstSeen {α : Type} [DecidableEq α] (xs : List α) : (firstSeen xs).Nodup :=
  nodup_reverse.mpr (nodup_dedup _)

theorem nodup_parts {α κ : Type} [DecidableEq κ] {l : List α} (hl : l.Nodup) {keys : List κ}
    (hkeys : keys.Nodup) (key : α → κ) :
    (keys.flatMap fun k => l.filter fun a => key a = k).Nodup := by
  rw [nodup_flatMap]
  refine ⟨fun k _ => hl.filter _, hkeys.imp_of_mem fun {a b} _ _ hab => ?_⟩
  intro x hx hx'
  have ha := (mem_filter.mp hx).2
  have hb := (mem_filter.mp hx').2
  rw [decide_eq_true_eq] at ha hb
  exact hab (ha.symm.trans hb)

theorem zorderPlan_subset (options : PlanOptions) (members : List Member) :
    ∀ m ∈ zorderPlan options members, m ∈ members := by
  intro m hm
  unfold zorderPlan at hm
  dsimp only at hm
  split_ifs at hm
  · cases hm
  · rcases mem_append.mp hm with hm | hm
    · exact (mem_filter.mp hm).1
    · obtain ⟨cube, hcube, hm⟩ := mem_flatten.mp hm
      obtain ⟨name, -, rfl⟩ := mem_map.mp (mem_filter.mp hcube).1
      exact (mem_filter.mp hm).1

theorem zorderPlan_nodup (options : PlanOptions) {members : List Member} (h : members.Nodup) :
    (zorderPlan options members).Nodup := by
  unfold zorderPlan
  dsimp only
  split_ifs
  · exact nodup_nil
  · have hcubes : (((firstSeen (members.filterMap Member.settled)).map fun cube =>
        members.filter fun m => m.settled = some cube).flatten).Nodup := by
      have hparts := nodup_parts h ((nodup_firstSeen (members.filterMap Member.settled)).map
        (Option.some_injective _)) Member.settled
      rwa [flatMap_map] at hparts
    refine nodup_append.mpr ⟨h.filter _, hcubes.sublist ?_, ?_⟩
    · exact List.Sublist.flatten filter_sublist
    · rintro a ha _ hb rfl
      obtain ⟨cube, hcube, hb⟩ := mem_flatten.mp hb
      obtain ⟨name, -, rfl⟩ := mem_map.mp (mem_filter.mp hcube).1
      have hsettled := (mem_filter.mp hb).2
      have hloose := (mem_filter.mp ha).2
      simp only [decide_eq_true_eq] at hsettled
      simp [hsettled] at hloose

end

section
variable {cubeOf : AddFile → Option Text} {options : PlanOptions} {width : Nat} {ordered : Bool}
  {keep : List (String × Option String) → Bool} {exclude : List Path} {fs : List AddFile}

variable {members : List Member}

theorem groups_subset {group : List Member}
    (hgroup : group ∈ groups options width ordered members) :
    ∀ m ∈ group, m ∈ members := by
  intro m hm
  unfold groups at hgroup
  split_ifs at hgroup
  · have hmem := mem_singleton.mp (mem_filter.mp hgroup).1
    subst hmem
    exact hm
  · have hmem := mem_singleton.mp (mem_filter.mp hgroup).1
    subst hmem
    exact zorderPlan_subset options members m hm
  · have hpacked := (mem_filter.mp hgroup).1
    have hsub := (pack_sublist options (members.insertionSort fun a b => a.size ≤ b.size) []).subset
    exact (mem_insertionSort _).mp (hsub (mem_flatten.mpr ⟨group, hpacked, hm⟩))

theorem single_nodup (h : members.Nodup) : ([members].filter fun g => g ≠ []).flatten.Nodup := by
  by_cases hempty : members = []
  · simp [hempty]
  · simpa [hempty] using h

theorem groups_nodup (h : members.Nodup) :
    (groups options width ordered members).flatten.Nodup := by
  unfold groups
  split_ifs
  · exact single_nodup h
  · exact single_nodup (zorderPlan_nodup options h)
  · have hsorted : (members.insertionSort fun a b => a.size ≤ b.size).Nodup :=
      (perm_insertionSort _ members).nodup_iff.mpr h
    have hpacked := hsorted.sublist
      (pack_sublist options (members.insertionSort fun a b => a.size ≤ b.size) [])
    exact hpacked.sublist (List.Sublist.flatten filter_sublist)

theorem groups_ne_nil {group : List Member}
    (hgroup : group ∈ groups options width ordered members) :
    group ≠ [] := by
  unfold groups at hgroup
  split_ifs at hgroup
  · simpa using (mem_filter.mp hgroup).2
  · simpa using (mem_filter.mp hgroup).2
  · exact pack_ne_nil options _ [] group (mem_filter.mp hgroup).1

theorem mem_planCompaction {bin : Bin}
    (h : bin ∈ planCompaction cubeOf options width ordered keep exclude fs) :
    ∃ key, ∃ group ∈ groups options width ordered
        (((considered keep exclude fs).filter fun f => partitionKey f = key).map (member cubeOf)),
      bin = Bin.of key group := by
  obtain ⟨key, -, hbin⟩ := mem_flatMap.mp h
  obtain ⟨group, hgroup, rfl⟩ := mem_map.mp hbin
  exact ⟨key, group, hgroup, rfl⟩

theorem mem_binPaths {path : Path}
    (h : path ∈ binPaths (planCompaction cubeOf options width ordered keep exclude fs)) :
    path ∉ exclude ∧ ∃ f ∈ fs, f.path = path := by
  obtain ⟨bin, hbin, hpath⟩ := mem_flatMap.mp h
  obtain ⟨key, group, hgroup, rfl⟩ := mem_planCompaction hbin
  obtain ⟨m, hm, rfl⟩ := mem_map.mp hpath
  obtain ⟨f, hf, rfl⟩ := mem_map.mp (groups_subset hgroup m hm)
  have hconsidered := (mem_filter.mp hf).1
  obtain ⟨hfs, htest⟩ := mem_filter.mp hconsidered
  rw [decide_eq_true_eq] at htest
  exact ⟨htest.1, f, hfs, rfl⟩

theorem bin_ne_nil {bin : Bin}
    (h : bin ∈ planCompaction cubeOf options width ordered keep exclude fs) : bin.paths ≠ [] := by
  obtain ⟨key, group, hgroup, rfl⟩ := mem_planCompaction h
  simpa [Bin.of] using groups_ne_nil hgroup

theorem binPaths_of (key : PartitionKey) (gs : List (List Member)) :
    binPaths (gs.map (Bin.of key)) = gs.flatten.map Member.path := by
  induction gs with
  | nil => rfl
  | cons g gs ih =>
    rw [map_cons, binPaths, flatMap_cons, ← binPaths, ih, flatten_cons,
      map_append]
    rfl

/-- No file is in two bins. -/
theorem nodup_binPaths (h : (fs.map AddFile.path).Nodup) :
    (binPaths (planCompaction cubeOf options width ordered keep exclude fs)).Nodup := by
  have hfiles : ((considered keep exclude fs).map AddFile.path).Nodup :=
    h.sublist (filter_sublist.map _)
  have hmembers : ∀ key, ((((considered keep exclude fs).filter fun f =>
      partitionKey f = key).map (member cubeOf)).map Member.path).Nodup := by
    intro key
    rw [map_map]
    exact hfiles.sublist (filter_sublist.map _)
  rw [planCompaction, binPaths, flatMap_assoc, nodup_flatMap]
  constructor
  · intro key _
    have hgroup : (groups options width ordered (((considered keep exclude fs).filter fun f =>
        partitionKey f = key).map (member cubeOf))).flatten.Nodup :=
      groups_nodup (hmembers key).of_map
    have hpaths : ((groups options width ordered (((considered keep exclude fs).filter fun f =>
        partitionKey f = key).map (member cubeOf))).flatten.map Member.path).Nodup := by
      refine hgroup.map_on fun a ha b hb hab => ?_
      obtain ⟨g, hg, ha⟩ := mem_flatten.mp ha
      obtain ⟨g', hg', hb⟩ := mem_flatten.mp hb
      exact inj_on_of_nodup_map (hmembers key) (groups_subset hg a ha) (groups_subset hg' b hb)
        hab
    rw [← binPaths_of key] at hpaths
    exact hpaths
  · have hkeys : (((considered keep exclude fs).map partitionKey).dedup.insertionSort
        fun a b => leKey a b).Nodup :=
      (perm_insertionSort _ _).nodup_iff.mpr (nodup_dedup _)
    have key_of : ∀ key path, path ∈ binPaths ((groups options width ordered
        (((considered keep exclude fs).filter fun f => partitionKey f = key).map
          (member cubeOf))).map (Bin.of key)) →
        ∃ f ∈ considered keep exclude fs, partitionKey f = key ∧ f.path = path := by
      intro key path hpath
      rw [binPaths_of] at hpath
      obtain ⟨m, hm, rfl⟩ := mem_map.mp hpath
      obtain ⟨g, hg, hm⟩ := mem_flatten.mp hm
      obtain ⟨f, hf, rfl⟩ := mem_map.mp (groups_subset hg m hm)
      obtain ⟨hf, hkey⟩ := mem_filter.mp hf
      exact ⟨f, hf, by simpa using hkey, rfl⟩
    refine hkeys.imp fun {a b} hab => ?_
    intro path ha hb
    obtain ⟨f, hf, rfl, hpath⟩ := key_of a path ha
    obtain ⟨g, hg, rfl, hpath'⟩ := key_of b path hb
    exact hab (congrArg partitionKey
      (inj_on_of_nodup_map hfiles hf hg (hpath.trans hpath'.symm)))

end

end DeltaSwamp.Compact
