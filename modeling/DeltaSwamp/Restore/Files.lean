import DeltaSwamp.Result
import DeltaSwamp.Table.Log

/-!
# The files a RESTORE puts back

`_restore_change`: the files of the target that are not live now come back with
the ids they had, or with fresh ones above the high-water mark.
-/

namespace DeltaSwamp.Restore

open Table Result List

/-- What a commit does to the `delta.rowTracking` domain. -/
inductive MarkAction where
  | set (mark : Int)
  | removed
  deriving DecidableEq

structure Commit where
  entry : Entry
  mark : Option MarkAction
  deriving DecidableEq

abbrev History := List Commit

def History.log (h : History) : Log := h.map Commit.entry

def Commit.markAfter (c : Commit) (mark : Int) : Int :=
  match c.mark with
  | none => mark
  | some (.set n) => n
  | some .removed => -1

/-- `rowIdHighWaterMark`, -1 where none is recorded. -/
def highWaterMark (h : History) : Int := h.foldl (fun mark c => c.markAfter mark) (-1)

def rowTracking (log : Log) : Bool :=
  (protocol log).any fun p => "rowTracking" ∈ p.writerFeatures.getD []

inductive Refused where
  | missing (path : Path)
  /-- No row count to assign ids from. -/
  | noCount (path : Path)
  deriving DecidableEq

/-- The mark, and whether ids were taken above it. -/
structure Ids where
  high : Int
  moved : Bool
  deriving DecidableEq

/-- A file of the target, as `add_actions` gives it. -/
def addBack (f : AddFile) : AddFile := { f with dataChange := true }

/-- The live file of the same path, if it has ids. -/
def sameFile (now : List AddFile) (f : AddFile) : Option AddFile :=
  (now.find? fun g => g.path = f.path).filter fun g => g.baseRowId.isSome

def assignIds (now : List AddFile) (f : AddFile) (ids : Ids) : Except Refused (AddFile × Ids) :=
  if f.baseRowId.isSome then .ok (f, ids)
  else
    match sameFile now f with
    | some same => .ok ({ f with
        baseRowId := same.baseRowId
        defaultRowCommitVersion := same.defaultRowCommitVersion }, ids)
    | none =>
      match f.numRecords with
      | none => .error (.noCount f.path)
      | some records =>
        .ok ({ f with baseRowId := some (ids.high + 1) }, ⟨ids.high + records, true⟩)

def stamped (version : Int) (f : AddFile) : AddFile :=
  { f with defaultRowCommitVersion := some (f.defaultRowCommitVersion.getD version) }

/-- The loop over the files put back on a row-tracked table. -/
def tracked (now : List AddFile) (version : Int) :
    List AddFile → Ids → Except Refused (List AddFile × Ids)
  | [], ids => .ok ([], ids)
  | f :: rest, ids => do
    let assigned ← assignIds now f ids
    let others ← tracked now version rest assigned.2
    .ok (stamped version assigned.1 :: others.1, others.2)

def targetFiles (h : History) (target : Nat) : List AddFile := files (h.log.take (target + 1))

/-- The files to put back, those missing from storage included. -/
def wanted (h : History) (target : Nat) : List AddFile :=
  ((targetFiles h target).filter fun f => f.key ∉ (files h.log).map AddFile.key).map addBack

theorem mem_wanted {h : History} {target : Nat} {f : AddFile} : f ∈ wanted h target ↔
    ∃ g ∈ targetFiles h target, g.key ∉ (files h.log).map AddFile.key ∧ addBack g = f := by
  simp [wanted, mem_map, mem_filter, and_assoc]

/-- The files to put back, where none is missing or missing ones are ignored. -/
def present (h : History) (target : Nat) (missing : AddFile → Bool) (ignoreMissing : Bool) :
    Except Refused (List AddFile) :=
  match (wanted h target).find? missing with
  | some f =>
    if ignoreMissing then .ok ((wanted h target).filter fun f => !missing f)
    else .error (.missing f.path)
  | none => .ok (wanted h target)

/-- The row ids of the files put back, where the table tracks them. -/
def withRowIds (h : History) (restored : List AddFile) : Except Refused (List AddFile × Ids) :=
  if rowTracking h.log then tracked (files h.log) h.length restored ⟨highWaterMark h, false⟩
  else .ok (restored, ⟨highWaterMark h, false⟩)

/-- `_restore_change`: `missing` is what storage says of a file and its vector. -/
def restoreChange (h : History) (target : Nat) (missing : AddFile → Bool) (ignoreMissing : Bool)
    (metaData : Option TableMetadata) : Except Refused Commit := do
  let removed := (files h.log).filter fun f => f.key ∉ (targetFiles h target).map AddFile.key
  let restored ← present h target missing ignoreMissing
  let assigned ← withRowIds h restored
  .ok {
    entry := {
      adds := assigned.1
      removes := removed.map AddFile.key
      metaData := metaData
      protocol := none
      txns := []
      commitInfo := none }
    mark := if assigned.2.moved then some (.set assigned.2.high) else none }

section
variable {ρ : Type} (st : Storage ρ)

/-- The row ids of a file: `[baseRowId, baseRowId + numRecords)`. -/
def ids (f : AddFile) : Finset Int :=
  f.baseRowId.elim ∅ fun base => (Finset.range (st.count f.path)).image fun k : Nat => base + k

end

/-- `f` is `g` put back: all it had, and the ids it had if any. -/
structure SameFile (g f : AddFile) : Prop where
  key : f.key = g.key
  vector : f.deletionVector = g.deletionVector
  size : f.size = g.size
  partitionValues : f.partitionValues = g.partitionValues
  stats : f.stats = g.stats
  numRecords : f.numRecords = g.numRecords
  tags : f.tags = g.tags
  baseRowId : g.baseRowId.isSome = true → f.baseRowId = g.baseRowId
  commitVersion : g.baseRowId.isSome = true → g.defaultRowCommitVersion.isSome = true →
    f.defaultRowCommitVersion = g.defaultRowCommitVersion

section
variable {ρ : Type} {st : Storage ρ} {now : List AddFile} {version : Int}

variable {f g : AddFile}

theorem SameFile.path (h : SameFile g f) : f.path = g.path :=
  congrArg Prod.fst h.key

theorem ids_congr (hpath : f.path = g.path) (hbase : f.baseRowId = g.baseRowId) :
    ids st f = ids st g := by
  rw [ids, ids, hpath, hbase]

/-- The ids are those a file of the same path has in `old`. -/
def OldIds (st : Storage ρ) (old : List AddFile) (f : AddFile) : Prop :=
  ∃ g ∈ old, g.path = f.path ∧ ids st f = ids st g

def NewIds (st : Storage ρ) (low high : Int) (f : AddFile) : Prop :=
  ∀ i ∈ ids st f, low < i ∧ i ≤ high

theorem OldIds.mono {old more : List AddFile} (h : OldIds st old f) (hsub : old ⊆ more) :
    OldIds st more f := by
  obtain ⟨g, hg, hpath, hids⟩ := h
  exact ⟨g, hsub hg, hpath, hids⟩

/-- A file put back has the ids it had, else those its path has now, else new ones. -/
def HasIds (st : Storage ρ) (now : List AddFile) (low high : Int) (g f : AddFile) : Prop :=
  g.baseRowId.isSome = true ∨
    (∃ same ∈ now, same.path = f.path ∧ same.baseRowId.isSome = true ∧ ids st f = ids st same) ∨
    NewIds st low high f

theorem HasIds.old_or_new {low high : Int} (h : HasIds st now low high g f) (hsame : SameFile g f) :
    OldIds st (g :: now) f ∨ NewIds st low high f := by
  rcases h with hbase | ⟨same, hmem, hpath, -, hids⟩ | hnew
  · exact .inl ⟨g, mem_cons_self, hsame.path.symm, ids_congr hsame.path (hsame.baseRowId hbase)⟩
  · exact .inl ⟨same, mem_cons_of_mem g hmem, hpath, hids⟩
  · exact .inr hnew

theorem HasIds.mono {low high low' high' : Int} (h : HasIds st now low high g f) (hlow : low' ≤ low)
    (hhigh : high ≤ high') : HasIds st now low' high' g f := by
  rcases h with hbase | hsame | hnew
  · exact .inl hbase
  · exact .inr (.inl hsame)
  · right; right
    intro i hi
    have hbounds := hnew i hi
    omega

theorem assignIds_ok (version : Int) {f' : AddFile} {before after : Ids}
    (h : assignIds now f before = .ok (f', after)) (hf : st.Describes f) :
    SameFile f (stamped version f') ∧ before.high ≤ after.high ∧
      (after.moved = false → after = before) ∧
      HasIds st now before.high after.high f (stamped version f') := by
  unfold assignIds at h
  by_cases hbase : f.baseRowId.isSome = true
  · rw [if_pos hbase] at h
    cases h
    refine ⟨⟨rfl, rfl, rfl, rfl, rfl, rfl, rfl, fun _ => rfl, fun _ hversion => ?_⟩, le_refl _,
      fun _ => rfl, .inl hbase⟩
    obtain ⟨v, hv⟩ := Option.isSome_iff_exists.mp hversion
    rw [stamped, hv, Option.getD_some]
  · rw [if_neg hbase] at h
    cases hsame : sameFile now f with
    | some same =>
      rw [hsame] at h
      cases h
      obtain ⟨hfind, hids⟩ := Option.filter_eq_some_iff.mp hsame
      have hpath := List.find?_some hfind
      rw [decide_eq_true_eq] at hpath
      have hmem := mem_of_find?_eq_some hfind
      exact ⟨⟨rfl, rfl, rfl, rfl, rfl, rfl, rfl, fun h => absurd h hbase,
        fun h => absurd h hbase⟩, le_refl _, fun _ => rfl,
        .inr (.inl ⟨same, hmem, hpath, hids, ids_congr hpath.symm rfl⟩)⟩
    | none =>
      rw [hsame] at h
      cases hrecords : f.numRecords with
      | none =>
        rw [hrecords] at h
        cases h
      | some records =>
        rw [hrecords] at h
        cases h
        have hcount : records = st.count f.path := hf.numRecords records hrecords
        refine ⟨⟨rfl, rfl, rfl, rfl, rfl, hrecords.symm, rfl, fun h => absurd h hbase,
          fun h => absurd h hbase⟩, by simp, (fun h => nomatch h), .inr (.inr ?_)⟩
        intro i hi
        obtain ⟨k, hk, rfl⟩ := Finset.mem_image.mp hi
        have hk : k < st.count f.path := Finset.mem_range.mp hk
        dsimp only
        omega

/-- What the loop keeps: ids are old, or above the mark and apart from the others. -/
structure Tracking (st : Storage ρ) (now fs adds : List AddFile) (before after : Ids) : Prop where
  keys : adds.map AddFile.key = fs.map AddFile.key
  le : before.high ≤ after.high
  unmoved : after.moved = false → after = before
  same : ∀ f ∈ adds, ∃ g ∈ fs, SameFile g f ∧ HasIds st now before.high after.high g f
  apart : adds.Pairwise fun f f' =>
    OldIds st (fs ++ now) f ∨ OldIds st (fs ++ now) f' ∨ Disjoint (ids st f) (ids st f')

/-- The files restored have the ids they had, or new ones. -/
theorem tracked_ok {fs adds : List AddFile} {before after : Ids}
    (h : tracked now version fs before = .ok (adds, after)) (hfs : ∀ f ∈ fs, st.Describes f) :
    Tracking st now fs adds before after := by
  induction fs generalizing adds before with
  | nil =>
    cases h
    exact ⟨rfl, le_refl _, fun _ => rfl, (fun f hf => nomatch hf), .nil⟩
  | cons f rest ih =>
    rw [tracked] at h
    obtain ⟨assigned, hassign, h⟩ := bind_eq_ok_iff.mp h
    obtain ⟨others, hothers, h⟩ := bind_eq_ok_iff.mp h
    cases h
    obtain ⟨hsame, hle, hunmoved, hids⟩ :=
      assignIds_ok version hassign (hfs f mem_cons_self)
    have hrest := ih hothers fun g hg => hfs g (mem_cons_of_mem f hg)
    have hhead : f :: now ⊆ f :: rest ++ now := by
      intro g hg
      rcases mem_cons.mp hg with rfl | hg
      · exact mem_cons_self
      · exact mem_append_right _ hg
    have htail : rest ++ now ⊆ f :: rest ++ now := subset_cons_self f _
    refine ⟨?_, hle.trans hrest.le, ?_, ?_, ?_⟩
    · rw [map_cons, map_cons, hrest.keys, hsame.key]
    · intro hmoved
      have hmiddle := hrest.unmoved hmoved
      rw [hmiddle] at hmoved ⊢
      exact hunmoved hmoved
    · intro g hg
      rcases mem_cons.mp hg with rfl | hg
      · exact ⟨f, mem_cons_self, hsame, hids.mono (le_refl _) hrest.le⟩
      · obtain ⟨k, hk, hsame', hids'⟩ := hrest.same g hg
        exact ⟨k, mem_cons_of_mem f hk, hsame', hids'.mono hle (le_refl _)⟩
    · refine pairwise_cons.mpr ⟨fun g hg => ?_, ?_⟩
      · rcases hids.old_or_new hsame with hold | hnew
        · exact .inl (hold.mono hhead)
        · obtain ⟨k, hk, hsame', hids'⟩ := hrest.same g hg
          rcases hids'.old_or_new hsame' with hold | hnew'
          · refine .inr (.inl (hold.mono ?_))
            intro q hq
            rcases mem_cons.mp hq with rfl | hq
            · exact mem_cons_of_mem f (mem_append_left _ hk)
            · exact mem_append_right _ hq
          · right; right
            rw [Finset.disjoint_left]
            intro i hi hi'
            have hhigh := (hnew i hi).2
            have hlow := (hnew' i hi').1
            omega
      · refine hrest.apart.imp fun {a b} hab => ?_
        rcases hab with hold | hold | hapart
        · exact .inl (hold.mono htail)
        · exact .inr (.inl (hold.mono htail))
        · exact .inr (.inr hapart)

end

end DeltaSwamp.Restore
