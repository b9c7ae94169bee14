import DeltaSwamp.Clone.Make

/-!
# The version 0 a clone commits

The listed files without the checks that cannot fail, the commit's actions read
back, and what a clone that is let through does to the store and the log.

Version 0 of the target, against the source's snapshot: the same files by what
is stored behind them, the same protocol, metadata and clustering, and a commit
well formed for its own protocol and properties.
-/

namespace DeltaSwamp.Clone

open Metadata List

/-- What a reader finds behind a vector's descriptor. -/
inductive VectorBytes (β : Type) where
  | stored (content : Option β)
  | inline (text : Text)

section
variable {β : Type} (lib : Vectors)

def vectorBytes (root : TableRoot) (objects : Copying.Objects Text β) (v : Table.DeletionVector) :
    VectorBytes β :=
  if v.storageType = "u".toList then
    .stored ((lib.name v.pathOrInlineDv).bind fun name => objects (join root name))
  else if v.storageType = "p".toList then .stored (objects v.pathOrInlineDv)
  else .inline v.pathOrInlineDv

variable (source target : TableRoot) (before after : Copying.Objects Text β)

/-- `u`, read under the target, is the vector `v` was under the source. -/
structure SameVector (v u : Table.DeletionVector) : Prop where
  bytes : vectorBytes lib target after u = vectorBytes lib source before v
  offset : u.offset = v.offset
  sizeInBytes : u.sizeInBytes = v.sizeInBytes
  cardinality : u.cardinality = v.cardinality

/-- `g`, read under the target, is the file `f` was under the source. -/
structure Mirrors (f g : Table.AddFile) : Prop where
  data : after (join target g.path) = before (join source f.path)
  vector : Option.Rel (SameVector lib source target before after) f.deletionVector
    g.deletionVector
  partitionValues : g.partitionValues = f.partitionValues
  size : g.size = f.size
  stats : g.stats = f.stats

end

/-- `str(config.get("delta.enableInCommitTimestamps")).lower() == "true"`. -/
def ictEnabled (config : Config) : Bool :=
  (config.get "delta.enableInCommitTimestamps").any fun v =>
    v.toList.map Char.toLower = "true".toList

def enablementVersion (config : Config) : Option Nat :=
  (config.get "delta.inCommitTimestampEnablementVersion").map fun v => Text.toNat v.toList

/-- What in-commit timestamps ask of version 0. -/
def Timestamped (info : CommitInfo) (config : Config) : Prop :=
  info.inCommitTimestamp.isSome ∧ ∀ n, enablementVersion config = some n → n ≤ 0

def listed (protocol : Protocol) (feature : String) : Prop :=
  feature ∈ protocol.writerFeatures.getD []

instance (protocol : Protocol) (feature : String) : Decidable (listed protocol feature) := by
  unfold listed
  infer_instance

/-- A first commit that its own protocol and properties allow. -/
structure WellFormed (actions : List Action) (info : CommitInfo) (protocol : Protocol)
    (metaData : MetaData) : Prop where
  first : ∃ rest, actions = .commitInfo info :: rest ∧ rest.filterMap Action.commitInfo? = []
  oneProtocol : actions.filterMap Action.protocol? = [protocol]
  oneMetaData : actions.filterMap Action.metaData? = [metaData]
  apart : ((Table.files [entry actions]).map Table.AddFile.key).Nodup
  vectors : (∃ f ∈ Table.files [entry actions], f.deletionVector ≠ none) →
    listed protocol "deletionVectors"
  domains : clusteringOf actions ≠ none → listed protocol "domainMetadata"
  timestamped : ictEnabled metaData.configuration = true → Timestamped info metaData.configuration
  rowIds : listed protocol "rowTracking" →
    ∀ f ∈ Table.files [entry actions], f.baseRowId.isSome

section
variable {β : Type} {lib : Vectors}

/-- `actions`, replayed as version 0 of the target, is a table with the source's contents. -/
structure Valid (source : Snapshot lib) (target : TableRoot) (before after : Copying.Objects Text β)
    (actions : List Action) : Prop where
  files : List.Forall₂ (Mirrors lib source.root target before after) source.files
    (Table.files [entry actions])
  protocol : Table.protocol [entry actions] = Table.protocol source.log
  clustering : clusteringOf actions = source.clustering
  described : ∃ info m, WellFormed actions info source.protocol m ∧
    Table.metadata [entry actions] = some m.toTableMetadata ∧
    m.schemaString = source.metaData.schemaString ∧
    m.partitionColumns = source.metaData.partitionColumns ∧
    m.configuration = source.metaData.configuration ∧
    m.name = source.metaData.name ∧ m.description = source.metaData.description ∧
    m.id ≠ source.metaData.id

/-- A clone that is let through: no refusal, a target elsewhere, and of a deep
clone no file of another table. -/
structure Accepted (table : ResolvedTable) (source : Snapshot lib) (target : TableRoot)
    (shallow : Bool) : Prop where
  notRefused : cloneRefusal table (.storage target) shallow false = none
  elsewhere : source.root.text ≠ target.text
  ownFiles : shallow = false → ∀ f ∈ source.files, spelledOut f.path = false

/-- The paths of the vectors the log names by URL. -/
def absoluteVectors (files : List Table.AddFile) : List Text :=
  files.filterMap fun f => f.deletionVector.bind fun v =>
    if v.storageType = "p".toList then some v.pathOrInlineDv else none

/-- The copies a deep clone makes. -/
def copiesMade (source : Snapshot lib) (target : TableRoot) : List (Text × Text) :=
  moves source.root target (sortedCopies (namedPaths lib source.files))

/-- What of a source a clone carries over: no in-commit timestamps, no row ids,
paths that are absolute just where they are spelled out, and copies that stay
clear of what is yet to be read. -/
structure Carries (source : Snapshot lib) (target : TableRoot) (shallow : Bool) : Prop where
  untimed : ictEnabled source.metaData.configuration = false
  untracked : listed source.protocol "rowTracking" → source.files = []
  spelled : shallow = true → ∀ f ∈ source.files, ReadAsSpelled source.root target f.path
  clear : shallow = false → Copying.Clear (copiesMade source target)
  vectorsKept : shallow = false → ∀ m ∈ copiesMade source target,
    m.2 ∈ absoluteVectors source.files → m.1 = m.2

end

variable {lib : Vectors} {β : Type}

section
variable (lib) (root : TableRoot) (shallow : Bool)

/-- The vector a clone's add carries, where every relative one has a name. -/
def carriedVector (v : Table.DeletionVector) : Table.DeletionVector :=
  match lib.nameOf v with
  | some name =>
    if shallow then { v with storageType := "p".toList, pathOrInlineDv := root.text ++ name } else v
  | none => v

def clonedAdd (now : Int) (modified : Option Int) (f : Table.AddFile) : Add where
  path := if shallow then absolutePath root f.path else f.path
  partitionValues := f.partitionValues
  size := f.size
  modificationTime := if modified.getD 0 = 0 then now else modified.getD 0
  dataChange := true
  stats := f.stats
  numRecords := f.numRecords
  tags := []
  deletionVector := f.deletionVector.map (carriedVector lib root shallow)
  baseRowId := none
  defaultRowCommitVersion := none

end

variable {v : Table.DeletionVector} {name : Text}

theorem nameOf_relative (h : lib.nameOf v = some name) : Relative name := by
  unfold Vectors.nameOf at h
  split_ifs at h
  exact lib.relative h

theorem nameOf_eq_some_iff :
    lib.nameOf v = some name ↔
      v.storageType = "u".toList ∧ lib.name v.pathOrInlineDv = some name := by
  unfold Vectors.nameOf
  split_ifs with hu
  · exact ⟨fun h => ⟨hu, h⟩, And.right⟩
  · exact ⟨nofun, fun h => absurd h.1 hu⟩

theorem absoluteDeletionVector_named (root : TableRoot) (h : lib.nameOf v = some name) :
    absoluteDeletionVector lib root v =
      .ok { v with storageType := "p".toList, pathOrInlineDv := root.text ++ name } := by
  obtain ⟨hu, hname⟩ := nameOf_eq_some_iff.mp h
  unfold absoluteDeletionVector
  rw [if_pos hu, hname]
  simp only [join_relative (lib.relative hname)]

theorem cloneFile_eq {root : TableRoot} {shallow : Bool} {now : Int} {modified : Option Int}
    {f : Table.AddFile}
    (hnamed : ∀ v, f.deletionVector = some v → v.storageType = "u".toList →
      (lib.name v.pathOrInlineDv).isSome) :
    cloneFile lib root shallow now modified f =
      .ok (clonedAdd lib root shallow now modified f,
        if shallow then [] else f.path :: (f.deletionVector.bind lib.nameOf).toList) := by
  cases hdv : f.deletionVector with
  | none => cases shallow <;> simp [cloneFile, clonedVector, copiedVector, clonedAdd, hdv, bind,
      Except.bind]
  | some v =>
    cases hname : lib.nameOf v with
    | none =>
      have hu : v.storageType ≠ "u".toList := by
        intro hu
        obtain ⟨name, hsome⟩ := Option.isSome_iff_exists.mp (hnamed v hdv hu)
        rw [nameOf_eq_some_iff.mpr ⟨hu, hsome⟩] at hname
        cases hname
      have hplain : absoluteDeletionVector lib root v = .ok v := by
        rw [absoluteDeletionVector, if_neg hu]
      have hnone : copiedVector lib root shallow (some v) = .ok [] := by
        rw [copiedVector, if_neg fun h => hu h.2]
      cases shallow <;>
        simp [cloneFile, clonedVector, hnone, clonedAdd, carriedVector, hplain, hname, hdv,
          bind, Except.bind, Except.map]
    | some name =>
      have hu := (nameOf_eq_some_iff.mp hname).1
      have habsolute := absoluteDeletionVector_named root hname
      cases shallow <;>
        simp [cloneFile, clonedVector, copiedVector, clonedAdd, carriedVector, habsolute, hname,
          hdv, hu, bind, Except.bind, Except.map]

section
variable (source : Snapshot lib) (shallow : Bool) (draws : Draws) (adds : List Add)

theorem filterMap_cloneActions {γ : Type} (pick : Action → Option γ) :
    (cloneActions source shallow draws adds).filterMap pick =
      (pick (.commitInfo (cloneInfo source shallow draws))).toList ++
      (pick (.protocol source.protocol)).toList ++
      (pick (.metaData (clonedMetaData source draws))).toList ++
      (source.clustering.bind fun configuration =>
        pick (.domainMetadata clusteringDomain configuration false)).toList ++
      adds.filterMap fun file => pick (.add file) := by
  have hcons : ∀ (a : Action) (rest : List Action),
      (a :: rest).filterMap pick = (pick a).toList ++ rest.filterMap pick := by
    intro a rest
    cases ha : pick a with
    | none => rw [filterMap_cons_none ha, Option.toList_none, nil_append]
    | some b => rw [filterMap_cons_some ha, Option.toList_some, singleton_append]
  unfold cloneActions
  simp only [filterMap_append, hcons, filterMap_nil, append_nil,
    filterMap_map, append_assoc]
  cases source.clustering with
  | none => rfl
  | some configuration =>
    simp only [Option.map_some, Option.toList_some, hcons, filterMap_nil, append_nil,
      Option.bind_some]
    rfl

theorem files_cloneActions :
    Table.files [entry (cloneActions source shallow draws adds)] = adds.map Add.toAddFile := by
  have hadds : (cloneActions source shallow draws adds).filterMap Action.add? = adds := by
    simp [filterMap_cloneActions, Action.add?]
  simp [Table.files, Table.reconcile, entry, hadds]

theorem protocols_cloneActions :
    (cloneActions source shallow draws adds).filterMap Action.protocol? = [source.protocol] := by
  simp [filterMap_cloneActions, Action.protocol?]

theorem metaData_cloneActions :
    (cloneActions source shallow draws adds).filterMap Action.metaData? =
      [clonedMetaData source draws] := by
  simp [filterMap_cloneActions, Action.metaData?]

theorem clustering_cloneActions :
    clusteringOf (cloneActions source shallow draws adds) = source.clustering := by
  unfold clusteringOf
  cases h : source.clustering <;> simp [filterMap_cloneActions, Action.clustering?, h]

theorem commitInfo_cloneActions :
    ∃ rest, cloneActions source shallow draws adds =
        .commitInfo (cloneInfo source shallow draws) :: rest ∧
      rest.filterMap Action.commitInfo? = [] := by
  refine ⟨_, rfl, ?_⟩
  have h : (cloneActions source shallow draws adds).filterMap Action.commitInfo? =
      [cloneInfo source shallow draws] := by
    simp [filterMap_cloneActions, Action.commitInfo?]
  have hpick : Action.commitInfo? (.commitInfo (cloneInfo source shallow draws)) =
      some (cloneInfo source shallow draws) := rfl
  rw [cloneActions, cons_append, cons_append, filterMap_cons_some hpick] at h
  exact (List.cons.inj h).2

end

section
variable (source : Snapshot lib) (shallow : Bool) (draws : Draws)

def clonedAdds : List Add :=
  source.files.map fun f =>
    clonedAdd lib source.root shallow draws.now (source.modified f) f

/-- What is copied, in order. -/
def cloneMoves (target : TableRoot) : List (Text × Text) :=
  if shallow then [] else copiesMade source target

theorem mapM_cloneFile :
    (source.files.mapM fun f =>
      cloneFile lib source.root shallow draws.now (source.modified f) f) =
      .ok (source.files.map fun f =>
        (clonedAdd lib source.root shallow draws.now (source.modified f) f,
          if shallow then [] else f.path :: (f.deletionVector.bind lib.nameOf).toList)) :=
  Result.mapM_eq_ok fun f hf => cloneFile_eq (source.named f hf)

theorem moves_cloneFile (target : TableRoot) :
    moves source.root target (sortedCopies
      ((source.files.map fun f =>
        (clonedAdd lib source.root shallow draws.now (source.modified f) f,
          if shallow then [] else f.path :: (f.deletionVector.bind lib.nameOf).toList)).flatMap
        Prod.snd)) = cloneMoves source shallow target := by
  cases shallow with
  | true =>
    have hnone : source.files.flatMap (fun _ => ([] : List Text)) = [] := by simp
    simp only [flatMap_map, if_true, hnone]
    rfl
  | false => simp [cloneMoves, copiesMade, namedPaths, flatMap_map]

theorem map_cloneFile :
    (source.files.map fun f =>
      (clonedAdd lib source.root shallow draws.now (source.modified f) f,
        if shallow then [] else f.path :: (f.deletionVector.bind lib.nameOf).toList)).map
      Prod.fst = clonedAdds source shallow draws := by
  simp [clonedAdds, Function.comp_def]

variable {source shallow draws} {table : ResolvedTable} {target : TableRoot} {ifNotExists : Bool}
  {w w' : World β}

theorem cloneInto_eq (hown : shallow = false → ∀ f ∈ source.files, spelledOut f.path = false) :
    cloneInto source shallow draws target w =
      match Copying.copyAll (cloneMoves source shallow target) w.objects with
      | none => .error .missingObject
      | some objects => commitRaw { w with objects := objects } target.text 0
          (cloneActions source shallow draws (clonedAdds source shallow draws)) := by
  have hforeign : ¬ (shallow = false ∧
      source.files.any (fun f => spelledOut f.path) = true) := by
    rintro ⟨hdeep, hany⟩
    obtain ⟨f, hf, hspelled⟩ := any_eq_true.mp hany
    rw [hown hdeep f hf] at hspelled
    cases hspelled
  unfold cloneInto
  rw [if_neg hforeign, mapM_cloneFile, ← moves_cloneFile, ← map_cloneFile]
  rfl

theorem commitRaw_zero {root : Text} {actions : List Action} :
    commitRaw w root 0 actions = .ok w' ↔ w.commits root 0 = none ∧
      { w with
        commits := Function.update w.commits root
          (Function.update (w.commits root) 0 (some actions)) } = w' := by
  unfold commitRaw
  rw [if_neg (by simp)]
  cases h : w.commits root 0 <;> simp

/-- A clone that is let through and returns: its copies are made, and its
actions are version 0 of the target. -/
theorem clone_ok_iff (hacc : Accepted table source target shallow) :
    clone source shallow draws table (.storage target) false ifNotExists w = .ok (w', .cloned) ↔
      w.latest target.text = none ∧ w.commits target.text 0 = none ∧
      ∃ objects, Copying.copyAll (cloneMoves source shallow target) w.objects = some objects ∧
        w' = { w with
          objects := objects,
          commits := Function.update w.commits target.text
            (Function.update (w.commits target.text) 0
              (some (cloneActions source shallow draws (clonedAdds source shallow draws)))) } := by
  unfold clone
  rw [hacc.notRefused]
  simp only [Bool.false_eq_true, false_and, if_false]
  cases hlatest : w.latest target.text with
  | some version => cases ifNotExists <;> simp
  | none =>
    rw [cloneInto_eq hacc.ownFiles]
    cases hcopy : Copying.copyAll (cloneMoves source shallow target) w.objects with
    | none => simp [Except.map]
    | some objects =>
      simp only [Result.map_eq_ok_iff, commitRaw_zero, Prod.mk.injEq, and_true,
        exists_eq_right, true_and, Option.some.injEq, exists_eq_left']
      rw [eq_comm (a := w')]

end

end DeltaSwamp.Clone
