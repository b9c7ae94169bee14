import DeltaSwamp.CommitTime
import DeltaSwamp.LogClean.Names
import Mathlib.Data.List.Dedup
import Mathlib.Data.List.ReduceOption

/-!
# The plan of a log cleanup

`plan` of `logclean.rs`: the checkpoint kept, the expired files below it, and
the sidecars that no checkpoint it reads references. Locations are the raw
paths of the object store.
-/

namespace DeltaSwamp.LogClean

open Commit CommitTime List

structure Sidecar where
  /-- The path below `_delta_log/_sidecars/`. -/
  rest : Text
  lastModified : Int
  deriving DecidableEq, Repr

/-- The latest snapshot of a table, the listings of its log, and what the
kernel and the readers of its checkpoints answer. -/
structure Table where
  root : Text
  catalogManaged : Bool
  readerFeatures : List Text
  writerFeatures : List Text
  snapshot : Snapshot
  history : History
  /-- The names of the objects directly in `_delta_log/`. -/
  objects : Except NativeError (List Text)
  sidecars : Except NativeError (List Sidecar)
  /-- A JSON checkpoint's lines, and the sidecar paths in a Parquet one's rows. -/
  lines : Text → Except NativeError (List Text)
  rows : Text → Except NativeError (List Text)
  /-- A line parsed as JSON, and the string at `sidecar.path`. -/
  sidecarPath : Text → Except Text (Option Text)
  /-- A sidecar's path as the location it names. -/
  resolve : Text → Except NativeError Text
  /-- Whether the kernel builds the table at a version from its checkpoint. -/
  buildsFrom : Version → Bool
  /-- `confine::is_under` of a key joined to the root. -/
  isUnder : Text → Bool

structure Listed where
  name : Text
  version : Version
  kind : LogFile
  deriving DecidableEq, Repr

structure Plan where
  keptCheckpoint : Option Version
  keys : List Text
  deriving DecidableEq, Repr

def LogFile.isV2 : LogFile → Bool
  | .v2Checkpoint _ => true
  | _ => false

def LogFile.isCheckpoint : LogFile → Bool
  | .checkpoint | .checkpointPart _ _ | .v2Checkpoint _ => true
  | _ => false

def child (parent part : Text) : Text := if parent = [] then part else parent ++ '/' :: part

/-- `key_under`: the location below the root. -/
def keyUnder (root location : Text) : Option Text := do
  let stripped ← location.dropPrefix? root
  let stripped ← if stripped ≠ [] ∧ root ≠ [] then stripped.dropPrefix? ['/'] else some stripped
  if stripped = [] then none else some stripped

section
variable (t : Table)

def logPath : Text := child t.root "_delta_log".toList

def logLocation (name : Text) : Text := child (logPath t) name

def sidecarLocation (s : Sidecar) : Text := child (child (logPath t) "_sidecars".toList) s.rest

/-- Why the log must not be cleaned up, if it must not. -/
def refusal : Option Text :=
  if t.catalogManaged then
    some ("the table is catalog-managed: its catalog owns the log, and it refuses changes " ++
      "to it from external engines").toList
  else if (t.readerFeatures ++ t.writerFeatures).contains "checkpointProtection".toList then
    some ("the table has checkpointProtection: its history before " ++
      "delta.requireCheckpointProtectionBeforeVersion may only be truncated as a whole, by a " ++
      "writer supporting every feature it ever had").toList
  else none

def listLog (names : List Text) : List Listed :=
  (names.filterMap fun name => (parse name).map fun (version, kind) => ⟨name, version, kind⟩)
    |>.insertionSort fun a b => ¬ b.name < a.name

/-- The textual pre-filter of a JSON checkpoint's lines. -/
def mentionsSidecar (line : Text) : Bool := Text.contains line "\"sidecar\":".toList

def readAction (name line : Text) : Except NativeError (Option Text) :=
  match t.sidecarPath line with
  | .ok path => .ok path
  | .error e => .error (.invalid ("bad action in ".toList ++ name ++ ": ".toList ++ e))

def sidecarNames (file : Listed) : Except NativeError (List Text) :=
  if file.kind = .v2Checkpoint true then do
    let lines ← t.lines file.name
    let paths ← (lines.filter mentionsSidecar).mapM (readAction t file.name)
    return paths.reduceOption
  else t.rows file.name

/-- `sidecars_of`: the sidecars the checkpoint file references, as read. -/
def sidecarsOf (file : Listed) : Except NativeError (List Text) := do
  (← sidecarNames t file).mapM t.resolve

def partsOf (files : List Listed) (n : Nat) : List Nat :=
  files.filterMap fun f => match f.kind with
    | .checkpointPart part parts => if parts = n then some part else none
    | _ => none

def partCounts (files : List Listed) : List Nat :=
  files.filterMap fun f => match f.kind with
    | .checkpointPart _ parts => some parts
    | _ => none

/-- Whether the checkpoint made of `files` is whole. -/
def complete (files : List Listed) (present : List Text) : Bool :=
  files.any (fun f => f.kind = .checkpoint) ||
  (partCounts files).any (fun n => (partsOf files n).dedup.length = n) ||
  files.any fun f => f.kind.isV2 && match sidecarsOf t f with
    | .ok sidecars => sidecars.all present.contains
    | .error _ => false

/-- The latest version committed at or before the cutoff. -/
def expiredVersion (cutoff : Int) : Except NativeError (Option Version) := do
  let found ← lookup t.snapshot t.history cutoff .atOrBefore .published
  return found.toOption.map fun (version, _) => min version t.snapshot.version

def checkpointVersions (checkpoints : List Listed) (expired : Version) : List Version :=
  ((checkpoints.map Listed.version).dedup.filter (· ≤ expired)).insertionSort (· ≥ ·)

def usable (checkpoints : List Listed) (present : List Text) (version : Version) : Bool :=
  complete t (checkpoints.filter (·.version = version)) present && t.buildsFrom version

/-- The newest usable checkpoint at or below the expired version. -/
def keptCheckpoint (checkpoints : List Listed) (present : List Text) (expired : Option Version) :
    Option Version := do
  (checkpointVersions checkpoints (← expired)).find? (usable t checkpoints present)

/-- The version a file's use ends with. -/
def Listed.last (f : Listed) : Version :=
  match f.kind with
  | .compacted upTo => upTo
  | _ => f.version

def expiredKeys (listed : List Listed) : Option Version → List Text
  | none => []
  | some kept =>
    (listed.filter fun f => f.last < kept).filterMap fun f =>
      keyUnder t.root (logLocation t f.name)

/-- A checkpoint file whose references are read before sidecars are deleted. -/
def isRead (kept : Option Version) (f : Listed) : Bool :=
  f.kind.isV2 && kept.all (· ≤ f.version)

/-- The sidecars referenced by what is read; nothing is when there are none. -/
def readReferences (sidecars : List Sidecar) (listed : List Listed) (kept : Option Version) :
    Except NativeError (List Text) :=
  if sidecars = [] then .ok []
  else do
    let referenced ← (listed.filter (isRead kept)).mapM (sidecarsOf t)
    return referenced.flatten

def doomedKeys (sidecars : List Sidecar) (cutoff : Int) (referenced : List Text) : List Text :=
  let doomed := sidecars.filter fun s =>
    s.lastModified < cutoff && !referenced.contains (sidecarLocation t s)
  (doomed.insertionSort fun a b => ¬ sidecarLocation t b < sidecarLocation t a).filterMap fun s =>
    keyUnder t.root (sidecarLocation t s)

def keyAllowed (key : Text) : Bool :=
  "_delta_log/".toList.isPrefixOf key && !"_delta_log/_staged_commits/".toList.isPrefixOf key &&
    t.isUnder key

def plan (cutoff : Int) : Except NativeError Plan :=
  match refusal t with
  | some reason => .error (.invalid ("cannot clean up the log: ".toList ++ reason))
  | none => do
    let listed := listLog (← t.objects)
    let sidecars ← t.sidecars
    let expired ← expiredVersion t cutoff
    let kept := keptCheckpoint t (listed.filter (·.kind.isCheckpoint))
      (sidecars.map (sidecarLocation t)) expired
    let referenced ← readReferences t sidecars listed kept
    return {
      keptCheckpoint := kept
      keys := (expiredKeys t listed kept ++
        doomedKeys t sidecars cutoff referenced).filter (keyAllowed t) }

end

open Commit CommitTime Result

section
variable (t : Table)

theorem mem_checkpointVersions (checkpoints : List Listed) (expired v : Version) :
    v ∈ checkpointVersions checkpoints expired ↔
      (∃ f ∈ checkpoints, f.version = v) ∧ v ≤ expired := by
  simp only [checkpointVersions, mem_insertionSort, mem_filter, mem_dedup,
    mem_map, decide_eq_true_eq]

theorem checkpointVersions_descending (checkpoints : List Listed) (expired : Version) :
    (checkpointVersions checkpoints expired).Pairwise (· ≥ ·) :=
  pairwise_insertionSort (· ≥ ·) _

/-- A checkpoint a cleanup may keep: usable, at or below the expired version. -/
structure CanKeep (checkpoints : List Listed) (present : List Text) (expired : Option Version)
    (v : Version) : Prop where
  listed : ∃ f ∈ checkpoints, f.version = v
  old : ∃ e, expired = some e ∧ v ≤ e
  usable : usable t checkpoints present v = true

variable {t} {checkpoints : List Listed} {present : List Text} {expired : Option Version}

theorem keptCheckpoint_canKeep {k : Version}
    (h : keptCheckpoint t checkpoints present expired = some k) :
    CanKeep t checkpoints present expired k := by
  obtain ⟨e, he, hfind⟩ := Option.bind_eq_some_iff.mp h
  obtain ⟨hlisted, hle⟩ := (mem_checkpointVersions _ _ _).mp (mem_of_find?_eq_some hfind)
  exact ⟨hlisted, ⟨e, he, hle⟩, List.find?_some hfind⟩

theorem CanKeep.le_kept {k v : Version} (hv : CanKeep t checkpoints present expired v)
    (h : keptCheckpoint t checkpoints present expired = some k) : v ≤ k := by
  obtain ⟨e, he, hfind⟩ := Option.bind_eq_some_iff.mp h
  obtain ⟨e', he', hle⟩ := hv.old
  obtain rfl : e = e' := Option.some.inj (he.symm.trans he')
  exact le_of_find?_eq_some (checkpointVersions_descending checkpoints e) hfind v
    ((mem_checkpointVersions _ _ _).mpr ⟨hv.listed, hle⟩) hv.usable

theorem keptCheckpoint_eq_none (h : keptCheckpoint t checkpoints present expired = none)
    (v : Version) : ¬ CanKeep t checkpoints present expired v := by
  rintro ⟨hlisted, ⟨e, rfl, hle⟩, husable⟩
  have hmem := (mem_checkpointVersions _ _ _).mpr ⟨hlisted, hle⟩
  exact absurd husable (List.find?_eq_none.mp h v hmem)

theorem forall_kept_le_iff (v : Version) :
    (∀ k, keptCheckpoint t checkpoints present expired = some k → k ≤ v) ↔
      ∀ w, CanKeep t checkpoints present expired w → w ≤ v := by
  constructor
  · intro h w hw
    cases hk : keptCheckpoint t checkpoints present expired with
    | none => exact absurd hw (keptCheckpoint_eq_none hk w)
    | some k => exact Nat.le_trans (hw.le_kept hk) (h k hk)
  · intro h k hk
    exact h k (keptCheckpoint_canKeep hk)

end

theorem keyUnder_child {root part : Text} (hpart : part ≠ []) :
    keyUnder root (child root part) = some part := by
  unfold keyUnder child
  by_cases hroot : root = []
  · subst hroot
    have hself : part.dropPrefix? [] = some part := dropPrefix?_append [] part
    simp [hself, hpart]
  · have hslash : ('/' :: part).dropPrefix? ['/'] = some part := dropPrefix?_append ['/'] part
    simp [hroot, dropPrefix?_append, hslash, hpart]

theorem child_child (root a b : Text) (ha : a ≠ []) :
    child (child root a) b = child root (a ++ '/' :: b) := by
  unfold child
  by_cases hroot : root = [] <;> simp [hroot, ha]

/-- The key of an object directly in `_delta_log/`. -/
def logKey (name : Text) : Text := "_delta_log/".toList ++ name

def sidecarKey (s : Sidecar) : Text := "_delta_log/_sidecars/".toList ++ s.rest

section
variable (t : Table)

theorem keyUnder_logLocation (name : Text) :
    keyUnder t.root (logLocation t name) = some (logKey name) := by
  rw [logLocation, logPath, child_child _ _ _ (by simp), keyUnder_child (by simp)]
  rfl

theorem keyUnder_sidecarLocation (s : Sidecar) :
    keyUnder t.root (sidecarLocation t s) = some (sidecarKey s) := by
  rw [sidecarLocation, logPath, child_child _ _ _ (by simp), child_child _ _ _ (by simp),
    keyUnder_child (by simp)]
  rfl

theorem mem_listLog {names : List Text} {f : Listed} :
    f ∈ listLog names ↔ f.name ∈ names ∧ parse f.name = some (f.version, f.kind) := by
  obtain ⟨name, version, kind⟩ := f
  simp only [listLog, mem_insertionSort, mem_filterMap, Option.map_eq_some_iff,
    Prod.exists, Listed.mk.injEq]
  constructor
  · rintro ⟨n, hn, v, k, hp, rfl, rfl, rfl⟩
    exact ⟨hn, hp⟩
  · rintro ⟨hn, hp⟩
    exact ⟨name, hn, version, kind, hp, rfl, rfl, rfl⟩

variable {kept : Option Version}

theorem mem_expiredKeys {listed : List Listed} {key : Text} :
    key ∈ expiredKeys t listed kept ↔
      ∃ k, kept = some k ∧ ∃ f ∈ listed, f.last < k ∧ logKey f.name = key := by
  cases kept with
  | none => simp [expiredKeys]
  | some k =>
    simp only [expiredKeys, keyUnder_logLocation, mem_filterMap, mem_filter,
      decide_eq_true_eq, Option.some.injEq, exists_eq_left', and_assoc]

variable {sidecars : List Sidecar} {referenced : List Text}

theorem mem_doomedKeys {cutoff : Int} {key : Text} :
    key ∈ doomedKeys t sidecars cutoff referenced ↔
      ∃ s ∈ sidecars, s.lastModified < cutoff ∧ sidecarLocation t s ∉ referenced ∧
        sidecarKey s = key := by
  simp only [doomedKeys, keyUnder_sidecarLocation, mem_filterMap, mem_insertionSort,
    mem_filter, Bool.and_eq_true, decide_eq_true_eq, Bool.not_eq_true', contains_eq_mem,
    decide_eq_false_iff_not, Option.some.injEq, and_assoc]

theorem parse_underscore (rest : Text) : parse ('_' :: rest) = none := by
  have hdigits : digits (('_' :: rest).take 20) 20 = none := by
    rw [Option.eq_none_iff_forall_not_mem]
    intro n hn
    have hspells := (digits_eq_some_iff _ _ _).mp hn
    exact absurd (hspells.digits '_' (by simp)) (by decide)
  simp only [parse, hdigits, Option.bind_eq_bind, Option.bind_none]

theorem parse_sidecars (rest : Text) : parse ("_sidecars/".toList ++ rest) = none :=
  parse_underscore _

/-- The checkpoint files of a listing. -/
def checkpointsOf (names : List Text) : List Listed :=
  (listLog names).filter (·.kind.isCheckpoint)

def keptOf (names : List Text) (sidecars : List Sidecar) (expired : Option Version) :
    Option Version :=
  keptCheckpoint t (checkpointsOf names) (sidecars.map (sidecarLocation t)) expired

/-- A location some checkpoint file that is read was found to reference. -/
def Referenced (names : List Text) (kept : Option Version) (path : Text) : Prop :=
  ∃ f ∈ listLog names, isRead kept f = true ∧ ∃ refs, sidecarsOf t f = .ok refs ∧ path ∈ refs

/-- What a successful plan read, kept and deletes. -/
structure Planned (cutoff : Int) (p : Plan) (names : List Text) (sidecars : List Sidecar)
    (expired : Option Version) : Prop where
  objects_eq : t.objects = .ok names
  sidecars_eq : t.sidecars = .ok sidecars
  expired_eq : expiredVersion t cutoff = .ok expired
  kept_eq : p.keptCheckpoint = keptOf t names sidecars expired
  mem_keys : ∀ key, key ∈ p.keys ↔ keyAllowed t key = true ∧
    ((∃ k, p.keptCheckpoint = some k ∧ ∃ f ∈ listLog names, f.last < k ∧ logKey f.name = key) ∨
      ∃ s ∈ sidecars, s.lastModified < cutoff ∧
        ¬ Referenced t names p.keptCheckpoint (sidecarLocation t s) ∧ sidecarKey s = key)
  reads : sidecars ≠ [] → ∀ f ∈ listLog names, isRead p.keptCheckpoint f = true →
    ∃ refs, sidecarsOf t f = .ok refs

theorem mem_readReferences {names : List Text} (hne : sidecars ≠ [])
    (h : readReferences t sidecars (listLog names) kept = .ok referenced) (path : Text) :
    path ∈ referenced ↔ Referenced t names kept path := by
  rw [readReferences, if_neg hne] at h
  obtain ⟨lists, hlists, h⟩ := bind_eq_ok_iff.mp h
  rw [pure_eq_ok_iff] at h
  simp only [← h, mem_flatten, mem_of_mapM_ok hlists, Referenced, mem_filter]
  constructor
  · rintro ⟨refs, ⟨f, ⟨hf, hread⟩, href⟩, hmem⟩
    exact ⟨f, hf, hread, refs, href, hmem⟩
  · rintro ⟨f, hf, hread, refs, href, hmem⟩
    exact ⟨refs, ⟨f, ⟨hf, hread⟩, href⟩, hmem⟩

theorem sidecarsOf_of_readReferences {listed : List Listed} (hne : sidecars ≠ [])
    (h : readReferences t sidecars listed kept = .ok referenced) :
    ∀ f ∈ listed, isRead kept f = true → ∃ refs, sidecarsOf t f = .ok refs := by
  rw [readReferences, if_neg hne] at h
  obtain ⟨lists, hlists, -⟩ := bind_eq_ok_iff.mp h
  intro f hf hread
  exact exists_ok_of_mapM_ok hlists f (mem_filter.mpr ⟨hf, hread⟩)

/-- What a plan was made from. -/
theorem planned_of_plan {t : Table} {cutoff : Int} {p : Plan} (h : plan t cutoff = .ok p) :
    ∃ names sidecars expired, Planned t cutoff p names sidecars expired := by
  unfold plan at h
  cases hr : refusal t with
  | some reason => simp [hr] at h
  | none =>
    simp only [hr] at h
    obtain ⟨names, hnames, h⟩ := bind_eq_ok_iff.mp h
    obtain ⟨sidecars, hsidecars, h⟩ := bind_eq_ok_iff.mp h
    obtain ⟨expired, hexpired, h⟩ := bind_eq_ok_iff.mp h
    obtain ⟨referenced, hreferenced, h⟩ := bind_eq_ok_iff.mp h
    rw [pure_eq_ok_iff] at h
    subst h
    refine ⟨names, sidecars, expired, hnames, hsidecars, hexpired, rfl, fun key => ?_,
      fun hne => sidecarsOf_of_readReferences t hne hreferenced⟩
    rw [mem_filter, mem_append, mem_expiredKeys, mem_doomedKeys, and_comm]
    refine and_congr_right fun _ => or_congr Iff.rfl ?_
    refine exists_congr fun s => and_congr_right fun hs => and_congr_right fun _ => ?_
    rw [mem_readReferences t (ne_nil_of_mem hs) hreferenced]

end

end DeltaSwamp.LogClean
