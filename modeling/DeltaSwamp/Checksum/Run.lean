import DeltaSwamp.Checksum.Carried

/-!
# The chain of checksums

Version 0's checksum is counted from its own actions, each later one carried
from the one before. Every checksum of the chain is true of its table, as long
as each commit it is carried over names its files once.
-/

namespace DeltaSwamp.Checksum

open List

section
variable {κ : Type} [DecidableEq κ] {key : Json → κ} {st : State κ}

/-- A domain or an application is named where the state has none of it yet. -/
def Fresh (st : State κ) : Action → Prop
  | .domainMetadata value => st.domains (value.get "domain") = none
  | .txn value => st.txns (value.get "appId") = none
  | _ => True

def AllFresh (key : Json → κ) : State κ → List Action → Prop
  | _, [] => True
  | st, a :: rest => Fresh st a ∧ AllFresh key (st.apply key a) rest

instance decidableFresh (st : State κ) : (action : Action) → Decidable (Fresh st action)
  | .domainMetadata value => inferInstanceAs (Decidable (st.domains (value.get "domain") = none))
  | .txn value => inferInstanceAs (Decidable (st.txns (value.get "appId") = none))
  | .add _ | .remove _ | .metaData _ | .protocol _ | .commitInfo _ | .other _ _ _ =>
    inferInstanceAs (Decidable True)

instance decidableAllFresh (key : Json → κ) : (st : State κ) → (actions : List Action) →
    Decidable (AllFresh key st actions)
  | _, [] => inferInstanceAs (Decidable True)
  | st, a :: rest =>
    have := decidableAllFresh key (st.apply key a) rest
    inferInstanceAs (Decidable (Fresh st a ∧ AllFresh key (st.apply key a) rest))

/-- What is put together for version 0 follows the state, up to the counters' width. -/
structure First.Tracks (first : First) (st : State κ) : Prop where
  files : (first.files : Int) = st.numFiles % 2 ^ 64
  size : (first.size : Int) = st.tableSize % 2 ^ 64
  metadata : first.crc.lookup "metadata" = st.metadata
  protocol : first.crc.lookup "protocol" = st.protocol
  domains : Lists first.domains "domain" st.domains
  txns : Lists first.txns "appId" st.txns
  ict : first.ict = st.inCommitTimestamp
  untracked : first.crc.lookup "fileSizeHistogram" = none

theorem Lists.append {items : List Json} {name : String} {entries : Option Json → Option Json}
    (h : Lists items name entries) {entry : Json} (hfresh : entries (entry.get name) = none) :
    Lists (items ++ [entry]) name (Function.update entries (entry.get name) (some entry)) := by
  have hkept : (items.filter fun item => item.get name ≠ entry.get name) = items := by
    refine filter_eq_self.mpr fun item hitem => ?_
    have hentry := (h.mem_iff item).mp hitem
    refine decide_eq_true fun hid => ?_
    rw [hid, hfresh] at hentry
    cases hentry
  have hupsert := h.upsert entry false
  rw [hkept] at hupsert
  exact hupsert

theorem asU64_size {file size : Json} {bytes : Nat} (hsize : file.get "size" = some size)
    (hbytes : size.asU64 = some bytes) : bytes = fileSize file := by
  cases size with
  | int n =>
    simp only [Json.asU64] at hbytes
    split_ifs at hbytes
    cases hbytes
    simp [fileSize, hsize]
  | _ => simp [Json.asU64] at hbytes

variable {action : Action}

/-- One action of the first commit keeps its counts true. -/
theorem First.action_tracks {first first' : First} (h : first.Tracks st)
    (hfits : Fits key st action) (hfresh : Fresh st action)
    (haction : first.action action.fields = some first') : first'.Tracks (st.apply key action) := by
  obtain ⟨hfiles, hsize, hmetadata, hprotocol, hdomains, htxns, hict, huntracked⟩ := h
  cases action with
  | add file =>
    obtain ⟨size, hget, haction⟩ := Option.bind_eq_some_iff.mp haction
    obtain ⟨bytes, hbytes, haction⟩ := Option.bind_eq_some_iff.mp haction
    cases haction
    obtain rfl := asU64_size hget hbytes
    refine ⟨?_, ?_, hmetadata, hprotocol, hdomains, htxns, hict, huntracked⟩
    · rw [State.numFiles, sumOf_add hfits, ← State.numFiles]
      simp only [wrapU64]
      push_cast
      rw [hfiles]
      exact Int.emod_add_emod ..
    · rw [State.tableSize, sumOf_add hfits, ← State.tableSize]
      simp only [wrapU64]
      push_cast
      rw [hsize]
      exact Int.emod_add_emod ..
  | remove file => cases haction
  | metaData value =>
    cases haction
    refine ⟨hfiles, hsize, ?_, ?_, hdomains, htxns, hict, ?_⟩
    · simp [Fields.lookup_insert, State.apply]
    · simpa [Fields.lookup_insert, State.apply] using hprotocol
    · simpa [Fields.lookup_insert] using huntracked
  | protocol value =>
    cases haction
    refine ⟨hfiles, hsize, ?_, ?_, hdomains, htxns, hict, ?_⟩
    · simpa [Fields.lookup_insert, State.apply] using hmetadata
    · simp [Fields.lookup_insert, State.apply]
    · simpa [Fields.lookup_insert] using huntracked
  | domainMetadata value =>
    have haction : (if isRemoved value then some first
        else some { first with domains := first.domains ++ [value] }) = some first' := haction
    split_ifs at haction with hremoved
    · cases haction
      have hsame : (st.apply key (.domainMetadata value)).domains = st.domains := by
        simp only [State.apply, hremoved, if_true]
        exact Function.update_eq_self_iff.mpr hfresh.symm
      exact ⟨hfiles, hsize, hmetadata, hprotocol, hsame ▸ hdomains, htxns, hict, huntracked⟩
    · cases haction
      have hadded := hdomains.append hfresh
      refine ⟨hfiles, hsize, hmetadata, hprotocol, ?_, htxns, hict, huntracked⟩
      simpa [State.apply, hremoved] using hadded
  | txn value =>
    cases haction
    exact ⟨hfiles, hsize, hmetadata, hprotocol, hdomains, htxns.append hfresh, hict, huntracked⟩
  | commitInfo value =>
    cases haction
    exact ⟨hfiles, hsize, hmetadata, hprotocol, hdomains, htxns, rfl, huntracked⟩
  | other kind value unknown =>
    have hsame : first' = first := by
      simp only [mem_cons, not_mem_nil, or_false, not_or] at unknown
      obtain ⟨h1, h2, h3, h4, h5, h6, h7⟩ := unknown
      have hlookup : ∀ name, name ≠ kind → List.lookup name [(kind, value)] = none := by
        intro name hne
        simp [lookup_cons, beq_false_of_ne hne]
      simp only [First.action, Action.fields, hlookup _ (Ne.symm h1), hlookup _ (Ne.symm h2),
        hlookup _ (Ne.symm h3), hlookup _ (Ne.symm h4), hlookup _ (Ne.symm h5),
        hlookup _ (Ne.symm h6), hlookup _ (Ne.symm h7)] at haction
      split_ifs at haction
      exact (Option.some.inj haction).symm
    subst hsame
    exact ⟨hfiles, hsize, hmetadata, hprotocol, hdomains, htxns, hict, huntracked⟩

variable {actions : List Action}

theorem First.actions_track {first first' : First} (h : first.Tracks st)
    (hfits : AllFit key st actions) (hfresh : AllFresh key st actions)
    (hactions : (actions.map Action.fields).foldlM First.action first = some first') :
    first'.Tracks (actions.foldl (State.apply key) st) := by
  induction actions generalizing first st with
  | nil =>
    cases hactions
    exact h
  | cons action rest ih =>
    rw [map_cons, foldlM_cons] at hactions
    obtain ⟨next, hnext, hactions⟩ := Option.bind_eq_some_iff.mp hactions
    exact ih (First.action_tracks h hfits.1 hfresh.1 hnext) hfits.2 hfresh.2 hactions

omit [DecidableEq κ] in
theorem First.tracks_empty : (⟨[], 0, 0, [], [], none⟩ : First).Tracks (State.empty : State κ) :=
  ⟨rfl, rfl, rfl, rfl, ⟨by simp [State.empty], by simp⟩, ⟨by simp [State.empty], by simp⟩, rfl, rfl⟩

theorem firstCommit_true {crc : Json} (hsmall : (State.empty.commit key actions).Small (2 ^ 64))
    (hfits : AllFit key State.empty actions) (hfresh : AllFresh key State.empty actions)
    (hfirst : firstCommit (some (lines actions)) = some crc) :
    ∃ fields, crc = .obj fields ∧ TrueOf fields (State.empty.commit key actions) := by
  simp only [firstCommit, Option.bind_eq_bind, Option.bind_some, readActions_lines] at hfirst
  obtain ⟨first, hactions, hfirst⟩ := Option.bind_eq_some_iff.mp hfirst
  split_ifs at hfirst
  obtain ⟨stamped, hstamp, hfirst⟩ := Option.bind_eq_some_iff.mp hfirst
  cases hfirst
  have h : first.Tracks (State.empty.commit key actions) :=
    First.actions_track First.tracks_empty hfits hfresh hactions
  obtain ⟨hict, hsame⟩ := stamp_eq_some hstamp
  have hfiles : (first.files : Int) = (State.empty.commit key actions).numFiles :=
    h.files.trans (Int.emod_eq_of_lt numFiles_nonneg hsmall.files)
  have hsize : (first.size : Int) = (State.empty.commit key actions).tableSize :=
    h.size.trans (Int.emod_eq_of_lt tableSize_nonneg hsmall.bytes)
  have hhistogram : (first.store stamped).lookup "fileSizeHistogram" = none := by
    simpa [First.store, Fields.lookup_insert, hsame] using h.untracked
  refine ⟨_, rfl, ⟨⟨?_, ?_, ?_⟩, ⟨?_, ?_, ?_, ?_⟩, ?_⟩⟩
  · simp [First.store, Fields.lookup_insert, hfiles]
  · simp [First.store, Fields.lookup_insert, hsize]
  · intro hist hread
    simp [readHistogram, hhistogram] at hread
  · simpa [First.store, Fields.lookup_insert, hsame] using h.metadata
  · simpa [First.store, Fields.lookup_insert, hsame] using h.protocol
  · intro items hitems
    have hdomains : first.domains = items := by
      simpa [First.store, Fields.lookup_insert] using hitems
    exact hdomains ▸ h.domains
  · intro items hitems
    have htxns : first.txns = items := by
      simpa [First.store, Fields.lookup_insert] using hitems
    exact htxns ▸ h.txns
  · simpa [First.store, Fields.lookup_insert, hict] using h.ict

/-- The checksum of version `n`: by the first commit, where that names each file, domain and
application once; by another writer that leaves a true one; or carried over the last commit,
where that adds files not live and removes live ones with their sizes. The totals fit. -/
inductive Written (key : Json → κ) (log : Nat → List Action) : Nat → Fields → Prop where
  | first {crc : Fields} : AllFit key State.empty (log 0) → AllFresh key State.empty (log 0) →
      (stateAt key log 0).Small (2 ^ 64) → firstCommit (some (lines (log 0))) = some (.obj crc) →
      Written key log 0 crc
  | given {n : Nat} {crc : Fields} : TrueOf crc (stateAt key log n) → Written key log n crc
  | carried {n : Nat} {crc crc' : Fields} : Written key log n crc →
      AllFit key (stateAt key log n).begin (log (n + 1)) →
      (filesChanged ((log (n + 1)).map Action.fields) = true →
        (stateAt key log (n + 1)).Small (2 ^ 63)) →
      carryForward (n + 1) (some (.obj crc)) (some (lines (log (n + 1)))) = some (.obj crc') →
      Written key log (n + 1) crc'

variable {crc : Fields}

theorem written_true {log : Nat → List Action} {n : Nat} (hw : Written key log n crc) :
    TrueOf crc (stateAt key log n) := by
  induction hw with
  | first hfits hfresh hsmall hfirst =>
    obtain ⟨fields, heq, htrue⟩ := firstCommit_true hsmall hfits hfresh hfirst
    cases heq
    exact htrue
  | given htrue => exact htrue
  | carried _ hfits hsmall hcarry ih =>
    obtain ⟨fields, heq, htrue⟩ := carryForward_true ih hsmall hfits hcarry
    cases heq
    exact htrue

/-- A checksum or a commit that cannot be read, or a commit whose files cannot be counted. -/
inductive Refused : Version → Option Json → Option (List (Option Json)) → Prop where
  | version (previous : Option Json) (commit : Option (List (Option Json))) :
      Refused 0 previous commit
  | previous (version : Version) (previous : Option Json) (commit : Option (List (Option Json))) :
      (∀ crc, previous ≠ some (.obj crc)) → Refused version previous commit
  | unpublished (version : Version) (previous : Option Json) : Refused version previous none
  | line (version : Version) (previous : Option Json) (lines : List (Option Json)) :
      readActions lines = none → Refused version previous (some lines)
  | operation (version : Version) (previous : Option Json) (actions : List Action) :
      filesChanged (actions.map Action.fields) = true →
      (∀ op, operationOf (actions.map Action.fields) = some op → op ∉ incrementalSafeOps) →
      Refused version previous (some (lines actions))
  | size (version : Version) (previous : Option Json) (actions : List Action) (file : Json) :
      (.add file ∈ actions ∨ .remove file ∈ actions) → sizeOf file = none →
      Refused version previous (some (lines actions))

theorem countActions_eq_none {c : Counts} {file : Json} {sign : Int} (hmem : action ∈ actions)
    (hfile : fileOf action.fields = some (file, sign)) (hsize : sizeOf file = none) :
    countActions c (actions.map Action.fields) = none := by
  induction actions generalizing c with
  | nil => cases hmem
  | cons head rest ih =>
    simp only [map_cons, countActions]
    rcases mem_cons.mp hmem with rfl | hmem
    · simp [hfile, Counts.count, hsize]
    · cases hhead : fileOf head.fields with
      | none => exact ih hmem
      | some counted =>
        cases hcount : c.count counted.1 counted.2 with
        | none => simp [hcount]
        | some c' => simpa [hcount] using ih hmem

theorem countFiles_eq_none {actions : List Fields} (h : ∀ c, countActions c actions = none) :
    countFiles crc actions = none := by
  unfold countFiles
  split_ifs
  · simp [h]
  · rfl

theorem carryForward_eq_none (version : Version)
    (hchanged : filesChanged (actions.map Action.fields) = true)
    (hcount : countFiles crc (actions.map Action.fields) = none) :
    carryForward (version + 1) (some (.obj crc)) (some (lines actions)) = none := by
  simp [carryForward, readActions_lines, hchanged, hcount]

theorem filesChanged_of_mem {counted : Json × Int} (hmem : action ∈ actions)
    (hfile : fileOf action.fields = some counted) :
    filesChanged (actions.map Action.fields) = true := by
  unfold filesChanged
  rw [any_map, any_eq_true]
  refine ⟨action, hmem, ?_⟩
  cases hadd : action.fields.lookup "add" with
  | some file => simp [hadd]
  | none =>
    cases hremove : action.fields.lookup "remove" with
    | some file => simp [hremove]
    | none => simp [fileOf, hadd, hremove] at hfile

theorem refused_eq_none {version : Version} {previous : Option Json}
    {commit : Option (List (Option Json))} (h : Refused version previous commit) :
    carryForward version previous commit = none := by
  unfold carryForward
  split
  · rename_i version crc lines
    cases h with
    | previous _ _ _ hnot => exact absurd rfl (hnot crc)
    | line _ _ _ hlines => simp [hlines]
    | operation _ _ actions hchanged hop =>
      refine carryForward_eq_none version hchanged ?_
      unfold countFiles
      rw [if_neg]
      intro hsafe
      obtain ⟨op, hfound, hsafe⟩ := (Option.any_eq_true ..).mp hsafe
      exact hop op hfound (of_decide_eq_true hsafe)
    | size _ _ actions file hmem hsize =>
      rcases hmem with hmem | hmem
      · exact carryForward_eq_none version (filesChanged_of_mem hmem rfl)
          (countFiles_eq_none fun c => countActions_eq_none hmem rfl hsize)
      · exact carryForward_eq_none version (filesChanged_of_mem hmem rfl)
          (countFiles_eq_none fun c => countActions_eq_none hmem rfl hsize)
  · rfl

/-- Every checksum composed here is true of the table, and none is composed
where the last one, or the commit, cannot be read or counted. -/
theorem checksums_true (key : Json → κ) (log : Nat → List Action) :
    (∀ n crc, Written key log n crc → TrueOf crc (stateAt key log n)) ∧
      ∀ version previous commit, Refused version previous commit →
        carryForward version previous commit = none :=
  ⟨fun _ _ hw => written_true hw, fun _ _ _ hr => refused_eq_none hr⟩

end

def pathOf (file : Json) : Option Json := file.get "path"

def file (path : String) (size : Int) : Json := .obj [("path", .str path), ("size", .int size)]

/-- A table of one file, and a write of another. -/
def twoCommits : Nat → List Action
  | 0 => [.protocol (.obj []), .metaData (.obj []), .add (file "a" 3)]
  | 1 => [.commitInfo (.obj [("operation", .str "WRITE")]), .add (file "b" 5)]
  | _ => []

theorem checksums_true_twoCommits :
    (∃ crc, Written pathOf twoCommits 1 crc ∧ crc.lookup "numFiles" = some (.int 2) ∧
      TrueOf crc (stateAt pathOf twoCommits 1)) ∧ carryForward 0 none none = none := by
  obtain ⟨htrue, hnone⟩ := checksums_true pathOf twoCommits
  have hfirst : Written pathOf twoCommits 0 _ :=
    .first (by decide) (by decide) ⟨by decide, by decide⟩ rfl
  have hsecond : Written pathOf twoCommits 1 _ :=
    hfirst.carried (by decide) (fun _ => ⟨by decide, by decide⟩) rfl
  exact ⟨⟨_, hsecond, rfl, htrue _ _ hsecond⟩, hnone _ _ _ (.version none none)⟩

def write (files : List Json) : List Action :=
  .commitInfo (.obj [("operation", .str "WRITE")]) :: files.map .add

/-- A first commit that adds one file twice, which its checksum and the next count twice. -/
def doubled : Nat → List Action
  | 0 => [.protocol (.obj []), .metaData (.obj []), .add (file "a" 3), .add (file "a" 3)]
  | _ => write []

/-- Files of `2 ^ 63 - 1` bytes: one, and two more. -/
def oversized : Nat → List Action
  | 0 => [.protocol (.obj []), .metaData (.obj []), .add (file "a" 9223372036854775807)]
  | _ => write [file "b" 9223372036854775807, file "c" 9223372036854775807]

/-- The checksum carried from the first commit's is wrong where that adds a file twice; and one
carried from a true checksum is where the bytes go once around the counter. -/
theorem doubledAdd_miscounted :
    (¬ ∀ (log : Nat → List Action) (crc crc' : Fields),
      firstCommit (some (lines (log 0))) = some (.obj crc) →
      AllFit pathOf (stateAt pathOf log 0).begin (log 1) →
      operationOf ((log 1).map Action.fields) = some "WRITE" →
      carryForward 1 (some (.obj crc)) (some (lines (log 1))) = some (.obj crc') →
      TrueOf crc' (stateAt pathOf log 1)) ∧
    ¬ ∀ (log : Nat → List Action) (crc crc' : Fields), TrueOf crc (stateAt pathOf log 0) →
      AllFit pathOf (stateAt pathOf log 0).begin (log 1) →
      operationOf ((log 1).map Action.fields) = some "WRITE" →
      carryForward 1 (some (.obj crc)) (some (lines (log 1))) = some (.obj crc') →
      TrueOf crc' (stateAt pathOf log 1) := by
  constructor
  · intro h
    have htrue := (h doubled _ _ rfl (by decide) rfl rfl).numFiles
    revert htrue
    decide
  · intro h
    have hfirst : Written pathOf oversized 0 _ :=
      .first (by decide) (by decide) ⟨by decide, by decide⟩ rfl
    have htrue := (h oversized _ _ (written_true hfirst) (by decide) rfl rfl).tableSizeBytes
    revert htrue
    decide

end DeltaSwamp.Checksum
