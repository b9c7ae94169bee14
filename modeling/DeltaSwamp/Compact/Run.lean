import DeltaSwamp.Compact.Stream
import DeltaSwamp.Run
import DeltaSwamp.Table.Commit
import DeltaSwamp.Table.Rebase

/-!
# An OPTIMIZE beside other writers

The loop of `compact`: plan from a snapshot, commit a step of bins on it, and
when another commit takes the version, rebase the step or plan again. Other
writers commit at any point, as long as they leave a valid table.
-/

namespace DeltaSwamp.Compact

open Table List

/-- One call of `compact`, with the batches a scan returns of some rows and what
the call works out from a snapshot: the width of a row, the partition filters,
the columns of the Z-order or the clustering keys, the cube of a file, and why
the table cannot be compacted. -/
structure Job (ρ : Type) where
  options : PlanOptions
  arrow : Streaming.Arrow ρ
  batches : List (Path × ρ) → List (Streaming.FileBatch ρ)
  rows_batches : ∀ rows, (batches rows).flatMap Streaming.FileBatch.rows = rows
  retries : Nat
  batchBytes : Nat
  sortBy : List Text
  width : Log → Nat
  keep : Log → List (String × Option String) → Bool
  ordering : Log → List Text
  cubeOf : Log → AddFile → Option Text
  refuses : Log → Bool

structure Progress where
  /-- The files removed and written so far. -/
  done : List Path
  conflicts : Nat
  /-- The snapshot last planned from. -/
  read : Option Log
  deriving DecidableEq

/-- A commit on its way to the log, with the snapshot it is built on. -/
structure Put where
  snapshot : Log
  entry : Entry
  deriving DecidableEq

def Put.version (put : Put) : Nat := put.snapshot.length

/-- The files a commit takes out of the listing. -/
def Put.removed (put : Put) : List Path := put.entry.removes.map Prod.fst

/-- The paths a later snapshot lists and an earlier one does not. -/
def newPaths (before after : Log) : List Path :=
  ((files after).map AddFile.path).filter (· ∉ (files before).map AddFile.path)

def Put.written (put : Put) : List Path := newPaths put.snapshot (put.snapshot ++ [put.entry])

inductive Phase where
  | plan (p : Progress)
  /-- A step is to be committed on the snapshot. -/
  | ready (p : Progress) (snapshot : Log) (step : List Bin)
  | sent (p : Progress) (step : List Bin) (put : Put)
  /-- The commit conflicted, or a file it reads is missing from storage. -/
  | lost (p : Progress) (snapshot : Log) (step : List Bin) (missing : Bool)
  /-- The step is committed, and `after` is the version it made. -/
  | landed (p : Progress) (snapshot : Log) (step : List Bin) (after : Log)
  | finished
  | raised
  deriving DecidableEq

def Phase.active : Phase → Bool
  | .finished | .raised => false
  | _ => true

structure World where
  log : Log
  phase : Phase
  /-- Every put made. -/
  sent : List Put
  /-- The puts that landed, in order. -/
  committed : List Put

inductive Event where
  /-- Another writer commits. -/
  | write (entry : Entry)
  | land (put : Put)
  | plan (seen : Nat)
  | commit (written : Storage.Written)
  | accepted
  | conflict
  | missing
  | rebase (seen : Nat)
  /-- The rebase cannot read the table. -/
  | cannotTell
  | settle
  | raise

section
variable {ρ : Type} [DecidableEq ρ] (upperChar lowerChar : Char → Text) (st : Storage ρ)
  (job : Job ρ)

/-- A protocol or metadata change since the last plan left a table that cannot be compacted. -/
def refused (p : Progress) (snapshot : Log) : Bool :=
  (p.read.any fun read =>
    protocol snapshot ≠ protocol read || !sameMetadata (metadata snapshot) (metadata read)) &&
    job.refuses snapshot

/-- The bins of one commit. -/
def firstStep (batchBytes : Nat) : List Bin → Nat → List Bin
  | [], _ => []
  | bin :: rest, budget =>
    let budget := budget + bin.sizes.sum
    if batchBytes ≤ budget then [bin] else bin :: firstStep batchBytes rest budget

def Job.plan (done : List Path) (snapshot : Log) : List Bin :=
  planCompaction (job.cubeOf snapshot) job.options (job.width snapshot)
    (job.ordering snapshot ≠ [])
    (job.keep snapshot) done (files snapshot)

def planned (p : Progress) (snapshot : Log) : Phase :=
  if refused job p snapshot then .raised
  else
    let bins := job.plan p.done snapshot
    if bins = [] then .finished
    else .ready { p with read := some snapshot } snapshot (firstStep job.batchBytes bins 0)

/-- The live rows of a bin's files, each with its file. -/
def binRows (snapshot : Log) (bin : Bin) : List (Path × ρ) :=
  bin.paths.flatMap fun path =>
    (((files snapshot).find? fun f => f.path = path).elim [] st.liveRows).map (Prod.mk path)

/-- The scan of a step, bin after bin. -/
def Job.scan (snapshot : Log) (step : List Bin) : List (Streaming.FileBatch ρ) :=
  step.flatMap fun bin => job.batches (binRows st snapshot bin)

/-- The output files of a step. -/
def Job.outputs (ordering : List Text) (snapshot : Log) (step : List Bin) :
    Option (List (List ρ)) :=
  Streaming.generate job.arrow ⟨job.options.target, job.options.maxFileBytes, ordering, job.sortBy⟩
    step .start (job.scan st snapshot step)

/-- What `_commit_compaction` asks of `commit_dml`. -/
def request (outputs : List (List ρ)) (step : List Bin) : Dml.Request where
  deletions := []
  wholeFiles := (binPaths step).dedup
  data := .stream (.ok (outputs.map List.length))
  dataChange := false
  deletions_nodup := nodup_nil
  wholeFiles_nodup := nodup_dedup _

/-- The output files, as storage holds them. -/
def Wrote (outputs : List (List ρ)) (w : Storage.Written) : Prop :=
  w.files.map (fun f => st.contents f.path) = outputs

instance (outputs : List (List ρ)) (w : Storage.Written) : Decidable (Wrote st outputs w) :=
  inferInstanceAs (Decidable (w.files.map (fun f => st.contents f.path) = outputs))

/-- `_commit_compaction`, up to the put: none where there is nothing to commit. -/
def commitCompaction (snapshot : Log) (step : List Bin) (outputs : List (List ρ)) :
    Except Dml.Refusal (Option Dml.Staged) :=
  if h : ((files snapshot).map AddFile.path).Nodup then
    Dml.stage (st.scan snapshot h) (request outputs step)
  else .error .vectorsDisabled

/-- The next phase of the call and the put it makes. The rows are ordered as planned. -/
def committing (p : Progress) (snapshot : Log) (step : List Bin) (w : Storage.Written) :
    Option (Phase × Option Put) :=
  match job.outputs st (job.ordering (p.read.getD snapshot)) snapshot step with
  | none => some (.raised, none)
  | some outputs =>
    match commitCompaction st snapshot step outputs with
    | .error _ => some (.raised, none)
    | .ok none => some (.landed p snapshot step snapshot, none)
    | .ok (some staged) =>
      if st.Holds snapshot staged w ∧ Wrote st outputs w then
        let put : Put := ⟨snapshot, st.entryOf snapshot staged w false [] none⟩
        some (.sent p step put, some put)
      else none

/-- What a call does with a conflict. -/
def conflicted (p : Progress) (snapshot : Log) (step : List Bin) (missing : Bool) : Phase :=
  if job.retries < p.conflicts + 1 then .raised
  else .lost { p with conflicts := p.conflicts + 1 } snapshot step missing

def rebased (p : Progress) (snapshot fresh : Log) (step : List Bin) (missing : Bool) : Phase :=
  match rebaseDvCommit upperChar lowerChar (fun _ _ => true) snapshot fresh (binPaths step) none
    true with
  | .ok (some fresh) => if missing then .raised else .ready p fresh step
  | .ok none => .plan p
  | .error _ => .raised

/-- The files the next plans leave alone. -/
def settled (p : Progress) (snapshot : Log) (step : List Bin) (after : Log) : Phase :=
  .plan { p with done := p.done ++ binPaths step ++ newPaths snapshot after }

/-- What the call does next, but for a commit, with the log as it is. -/
def advance (log : Log) : Phase → Event → Option Phase
  | .plan p, .plan seen => some (planned job p (log.take seen))
  | .sent p step put, .accepted =>
    if log[put.version]? = some put.entry then
      some (.landed p put.snapshot step (log.take (put.version + 1)))
    else none
  | .sent p step put, .conflict =>
    if put.version < log.length ∧ log[put.version]? ≠ some put.entry then
      some (conflicted job p put.snapshot step false)
    else none
  | .ready p snapshot step, .missing => some (conflicted job p snapshot step true)
  | .lost p snapshot step missing, .rebase seen =>
    some (rebased upperChar lowerChar p snapshot (log.take seen) step missing)
  | .lost p _ _ _, .cannotTell => some (.plan p)
  | .landed p snapshot step after, .settle => some (settled p snapshot step after)
  | phase, .raise => if phase.active then some .raised else none
  | _, _ => none

def next (s : World) (e : Event) : Option World :=
  match e with
  | .write entry =>
    if st.Valid (s.log ++ [entry]) then some { s with log := s.log ++ [entry] } else none
  | .land put =>
    if put ∈ s.sent ∧ put.version = s.log.length then
      some { s with log := s.log ++ [put.entry], committed := s.committed ++ [put] }
    else none
  | .commit w =>
    match s.phase with
    | .ready p snapshot step =>
      (committing st job p snapshot step w).map fun made =>
        { s with phase := made.1, sent := made.2.toList ++ s.sent }
    | _ => none
  | e => (advance upperChar lowerChar job s.log s.phase e).map fun phase => { s with phase }

def World.init (log : Log) : World :=
  { log, phase := .plan ⟨[], 0, none⟩, sent := [], committed := [] }

end

section
variable {ρ : Type} {st : Storage ρ} {job : Job ρ} {snapshot : Log} {step : List Bin}

theorem binRows_flatMap (step : List Bin) :
    (step.flatMap (binRows st snapshot)).map Prod.snd =
      (binPaths step).flatMap fun path =>
        ((files snapshot).find? fun f => f.path = path).elim [] st.liveRows := by
  unfold binPaths binRows
  simp only [map_flatMap, flatMap_assoc, map_map]
  simp

theorem rows_of_paths {fs : List AddFile} (hnodup : (fs.map AddFile.path).Nodup)
    {paths : List Path} (hpaths : paths.Nodup) (hlive : ∀ p ∈ paths, p ∈ fs.map AddFile.path) :
    ((paths.flatMap fun path => (fs.find? fun f => f.path = path).elim [] st.liveRows : List ρ) :
      Multiset ρ) = st.bag (fs.filter fun f => f.path ∈ paths) := by
  induction paths with
  | nil => simp [Storage.bag, Storage.rows]
  | cons p paths ih =>
    obtain ⟨f, hf, rfl⟩ := mem_map.mp (hlive p mem_cons_self)
    obtain ⟨hnot, hrest⟩ := nodup_cons.mp hpaths
    have hrows := ih hrest fun q hq => hlive q (mem_cons_of_mem _ hq)
    have hsplit : (fs.filter fun g => g.path ∈ f.path :: paths).Perm
        (f :: fs.filter fun g => g.path ∈ paths) := by
      rw [perm_ext_iff_of_nodup (hnodup.of_map.filter _)
        (nodup_cons.mpr ⟨by simp [hnot], hnodup.of_map.filter _⟩)]
      intro g
      simp only [mem_filter, mem_cons, decide_eq_true_eq]
      constructor
      · rintro ⟨hg, hpath | hpath⟩
        · exact .inl (inj_on_of_nodup_map hnodup hg hf hpath)
        · exact .inr ⟨hg, hpath⟩
      · rintro (rfl | ⟨hg, hpath⟩)
        · exact ⟨hf, .inl rfl⟩
        · exact ⟨hg, .inr hpath⟩
    rw [flatMap_cons, find_path hnodup hf, Option.elim_some, ← Multiset.coe_add, hrows,
      Storage.bag_perm hsplit]
    rfl

/-- A step that a commit on the snapshot can carry out. -/
structure Fits (snapshot : Log) (step : List Bin) : Prop where
  nodup : (binPaths step).Nodup
  live : ∀ path ∈ binPaths step, path ∈ (files snapshot).map AddFile.path
  nonempty : binPaths step ≠ []

/-- Where no path is in two bins, a path's owner is the bin that lists it. -/
theorem owner_eq {tag : Streaming.Tag} {path : Path} (hnodup : (binPaths step).Nodup)
    (htag : tag ∈ step.zipIdx) (hpath : path ∈ tag.1.paths) :
    Streaming.owner step path = some tag := by
  have hfound : (Streaming.owner step path).isSome := by
    rw [Streaming.owner, find?_isSome]
    exact ⟨tag, mem_reverse.mpr htag, by simpa using hpath⟩
  obtain ⟨other, hother⟩ := Option.isSome_iff_exists.mp hfound
  have hlisted : path ∈ other.1.paths := by simpa using find?_some hother
  have hmem := mem_reverse.mp (mem_of_find?_eq_some hother)
  have hpaths : (step.zipIdx.flatMap fun tag => tag.1.paths).Nodup := by
    rw [binPaths, ← zipIdx_map_fst 0 step, flatMap_map] at hnodup
    exact hnodup
  have hdisjoint := (nodup_flatMap.mp hpaths).2
  have hsymm : Std.Symm (Function.onFun List.Disjoint fun tag : Streaming.Tag => tag.1.paths) :=
    ⟨fun _ _ h => h.symm⟩
  rw [hother]
  by_contra hne
  have hne : other ≠ tag := fun heq => hne (congrArg some heq)
  exact hdisjoint.forall hmem htag hne hlisted hpath

theorem outputs_files {ordering : List Text} {outputs : List (List ρ)} (hfits : Fits snapshot step)
    (houtputs : job.outputs st ordering snapshot step = some outputs) :
    outputs.flatten.Perm ((step.flatMap (binRows st snapshot)).map Prod.snd) ∧
      ∀ out ∈ outputs, out ≠ [] := by
  let runs : List (Streaming.BinRun ρ) :=
    step.zipIdx.map fun tag => (tag, job.batches (binRows st snapshot tag.1))
  have hnodup : (runs.map fun run => run.1.2).Nodup := by
    simp only [runs, map_map]
    change (step.zipIdx.map Prod.snd).Nodup
    rw [zipIdx_map_snd]
    exact nodup_range'
  have howned : ∀ run ∈ runs, Streaming.BinRun.Owned step run := by
    intro run hrun batch hbatch row hrow
    obtain ⟨tag, htag, rfl⟩ := mem_map.mp hrun
    have hrow : row ∈ binRows st snapshot tag.1 := by
      rw [← job.rows_batches (binRows st snapshot tag.1)]
      exact mem_flatMap.mpr ⟨batch, hbatch, hrow⟩
    obtain ⟨path, hpath, hrow⟩ := mem_flatMap.mp hrow
    obtain ⟨_, -, rfl⟩ := mem_map.mp hrow
    exact owner_eq hfits.nodup htag hpath
  have hscan : runs.flatMap Prod.snd = job.scan st snapshot step := by
    conv_rhs => rw [Job.scan, ← zipIdx_map_fst 0 step, flatMap_map]
    simp [runs, flatMap_map]
  have hrows : runs.flatMap Streaming.BinRun.rows =
      (step.flatMap (binRows st snapshot)).map Prod.snd := by
    conv_rhs => rw [← zipIdx_map_fst 0 step, flatMap_map, map_flatMap]
    simp [runs, flatMap_map, Streaming.BinRun.rows, job.rows_batches]
  obtain ⟨files, hgenerate, hfiles⟩ := Streaming.generate_start job.arrow runs hnodup howned
  have hsame := hgenerate.symm.trans ((congrArg _ hscan).trans houtputs)
  obtain rfl := Option.some.inj hsame
  have hall := Streaming.files_flatten hfiles
  exact ⟨hrows ▸ hall.perm, hall.nonempty⟩

theorem outputs_rows {ordering : List Text} {outputs : List (List ρ)} (hvalid : st.Valid snapshot)
    (hfits : Fits snapshot step) (houtputs : job.outputs st ordering snapshot step = some outputs) :
    (outputs.flatten : Multiset ρ) =
      st.bag ((files snapshot).filter fun f => f.path ∈ binPaths step) := by
  rw [Multiset.coe_eq_coe.mpr (outputs_files hfits houtputs).1, binRows_flatMap,
    rows_of_paths hvalid.nodup hfits.nodup hfits.live]

variable {staged : Dml.Staged}

theorem written_bag [DecidableEq ρ] {w : Storage.Written} (hholds : st.Holds snapshot staged w)
    {outputs : List (List ρ)} (hwrote : Wrote st outputs w) :
    st.bag w.files = (outputs.flatten : Multiset ρ) := by
  have hrows : st.rows w.files = outputs.flatten := by
    rw [Storage.rows, ← hwrote, ← flatMap_def]
    refine flatMap_congr fun f hf => ?_
    exact Storage.liveRows_plain (hholds.plain f hf)
  rw [Storage.bag, hrows]

theorem requested_empty (outputs : List (List ρ)) (path : Path) :
    (request outputs step).requested path = ∅ := rfl

theorem mem_wholeFiles (outputs : List (List ρ)) (path : Path) :
    path ∈ (request outputs step).wholeFiles ↔ path ∈ binPaths step := mem_dedup

theorem expected_request {outputs : List (List ρ)} {f : AddFile} (hf : st.Describes f) :
    Dml.expected (request outputs step) (st.scanFile f) =
      if f.path ∈ binPaths step then ∅ else st.visible f := by
  have hpath : (st.scanFile f).path = f.path := rfl
  by_cases hmem : f.path ∈ binPaths step
  · rw [if_pos hmem, Dml.expected_whole]
    rw [hpath, mem_wholeFiles]
    exact hmem
  · rw [if_neg hmem, Dml.expected_rows, requested_empty, Finset.sdiff_empty,
      Storage.scanFile_visible hf]
    rw [hpath, mem_wholeFiles]
    exact hmem

theorem bag_expected (hvalid : st.Valid snapshot) (outputs : List (List ρ)) :
    (((files snapshot).flatMap fun f => st.rowsAt f.path
        (Dml.expected (request outputs step) (st.scanFile f)) : List ρ) : Multiset ρ) =
      st.bag ((files snapshot).filter fun f => !decide (f.path ∈ binPaths step)) := by
  have hrows : ∀ fs : List AddFile, (∀ f ∈ fs, st.Describes f) →
      (fs.flatMap fun f => st.rowsAt f.path
        (Dml.expected (request outputs step) (st.scanFile f))) =
        st.rows (fs.filter fun f => !decide (f.path ∈ binPaths step)) := by
    intro fs hfs
    induction fs with
    | nil => rfl
    | cons f fs ih =>
      rw [flatMap_cons, expected_request (hfs f mem_cons_self),
        ih fun g hg => hfs g (mem_cons_of_mem f hg)]
      by_cases hmem : f.path ∈ binPaths step
      · simp [hmem, Storage.rowsAt_empty]
      · simp [hmem, Storage.rows, Storage.liveRows]
  rw [hrows _ hvalid.describes]
  rfl

/-- A put that keeps the bag of rows, and takes files of its step only. -/
structure Built (st : Storage ρ) (step : List Bin) (put : Put) : Prop where
  valid : st.Valid (put.snapshot ++ [put.entry])
  bag : st.bag (files (put.snapshot ++ [put.entry])) = st.bag (files put.snapshot)
  nodup : put.removed.Nodup
  nonempty : put.removed ≠ []
  removed : ∀ path ∈ put.removed, path ∈ binPaths step
  live : ∀ path ∈ put.removed, path ∈ (files put.snapshot).map AddFile.path

theorem stage_of_commitCompaction {outputs : List (List ρ)} {staged : Option Dml.Staged}
    (h : commitCompaction st snapshot step outputs = .ok staged) :
    ∃ hnodup, Dml.stage (st.scan snapshot hnodup) (request outputs step) = .ok staged := by
  unfold commitCompaction at h
  split_ifs at h with hnodup
  exact ⟨hnodup, h⟩

theorem removed_eq (staged : Dml.Staged) (w : Storage.Written) :
    Put.removed ⟨snapshot, st.entryOf snapshot staged w false [] none⟩ =
      ((files snapshot).filter (Storage.taken staged)).map AddFile.path := by
  rw [Put.removed, Storage.entryOf, map_map]
  rfl

variable {ordering : List Text} {outputs : List (List ρ)}

theorem outputs_empty (hvalid : st.Valid snapshot) (hfits : Fits snapshot step)
    (houtputs : job.outputs st ordering snapshot step = some outputs)
    {hnodup : ((files snapshot).map AddFile.path).Nodup}
    (h : Dml.Settled (st.scan snapshot hnodup) (request outputs step) []) : outputs = [] := by
  have hleft := h.nothingLeft_iff.mp rfl
  have hempty : (outputs.flatten : Multiset ρ) = 0 := by
    rw [outputs_rows hvalid hfits houtputs, Storage.bag, Storage.rows, Multiset.coe_eq_zero,
      flatMap_eq_nil_iff]
    intro f hf
    obtain ⟨hf, hmem⟩ := mem_filter.mp hf
    rw [decide_eq_true_eq] at hmem
    have hnothing := hleft (st.scanFile f) (Storage.mem_scan hf)
    rw [if_pos ((mem_wholeFiles _ (st.scanFile f).path).mpr hmem)] at hnothing
    rw [Storage.liveRows, ← Storage.scanFile_visible (hvalid.describes f hf), hnothing.2,
      Storage.rowsAt_empty]
  rw [eq_nil_iff_forall_not_mem]
  intro out hout
  rw [Multiset.coe_eq_zero, flatten_eq_nil_iff] at hempty
  exact (outputs_files hfits houtputs).2 out hout (hempty out hout)

theorem taken_exists (hvalid : st.Valid snapshot) (hfits : Fits snapshot step)
    (houtputs : job.outputs st ordering snapshot step = some outputs)
    {hnodup : ((files snapshot).map AddFile.path).Nodup}
    (h : Dml.stage (st.scan snapshot hnodup) (request outputs step) = .ok (some staged)) :
    ∃ f ∈ files snapshot, Storage.taken staged f = true := by
  obtain ⟨-, touched, data, hsettled, hdata, ⟨hnone, -⟩ | ⟨hsome, hbusy⟩⟩ := Dml.stage_eq_ok h
  · cases hnone
  · have htouched : touched ≠ [] := by
      rintro rfl
      have hempty := outputs_empty hvalid hfits houtputs hsettled
      refine hbusy ⟨rfl, ?_⟩
      simp only [Dml.dataToWrite, request, hempty, map_nil, isEmpty_nil, if_true,
        Bool.false_eq_true, if_false, Dml.lift] at hdata
      cases hdata
      rfl
    obtain ⟨entry, hentry⟩ := exists_mem_of_ne_nil touched htouched
    have hpath := hsettled.live entry.1 (mem_map_of_mem hentry)
    rw [Storage.scan_files, map_map] at hpath
    obtain ⟨f, hf, hfpath⟩ := mem_map.mp hpath
    have hfpath : f.path = entry.1 := hfpath
    have hlookup : touched.lookup f.path = some entry.2 :=
      (Assoc.lookup_eq_some_iff hsettled.nodup _ _).mpr (hfpath ▸ hentry)
    have hfate := hsettled.fate _ (Storage.mem_scan hf)
    have hfate := hfate.symm.trans hlookup
    refine ⟨f, hf, ?_⟩
    cases hsome
    cases hremove : entry.2.remove with
    | true =>
      have hremoved := (hsettled.mem_removes (Storage.mem_scan hf)).mpr ⟨_, hfate, hremove⟩
      have hremoved : f.path ∈ Dml.maskedRemoves (st.scan snapshot hnodup) touched := hremoved
      simp [Storage.taken, hremoved]
    | false =>
      have hupdate := hsettled.updates_lookup (Storage.mem_scan hf)
      rw [hfate] at hupdate
      have hkept : Option.filter (fun t : Dml.Touched => !t.remove) (some entry.2) =
          some entry.2 := by
        simp [Option.filter, hremove]
      rw [hkept] at hupdate
      have hupdate : (Dml.maskedUpdates (st.scan snapshot hnodup) touched).lookup f.path =
          some entry.2.deleted := hupdate
      simp [Storage.taken, hupdate]

theorem built_of_stage [DecidableEq ρ] (hvalid : st.Valid snapshot) (hfits : Fits snapshot step)
    (houtputs : job.outputs st ordering snapshot step = some outputs)
    (h : commitCompaction st snapshot step outputs = .ok (some staged)) {w : Storage.Written}
    (hholds : st.Holds snapshot staged w) (hwrote : Wrote st outputs w) :
    Built st step ⟨snapshot, st.entryOf snapshot staged w false [] none⟩ := by
  obtain ⟨hnodup, hstage⟩ := stage_of_commitCompaction h
  refine ⟨Storage.valid_entryOf hvalid hstage hholds, ?_, ?_, ?_, ?_, ?_⟩
  · dsimp only
    rw [Storage.bag_entryOf hvalid hstage hholds, bag_expected hvalid,
      written_bag hholds hwrote, outputs_rows hvalid hfits houtputs, add_comm]
    exact Storage.bag_filter (files snapshot) fun f => decide (f.path ∈ binPaths step)
  · rw [removed_eq]
    exact hvalid.nodup.sublist (filter_sublist.map _)
  · rw [removed_eq]
    obtain ⟨f, hf, htaken⟩ := taken_exists hvalid hfits houtputs hstage
    exact ne_nil_of_mem (mem_map_of_mem (mem_filter.mpr ⟨hf, htaken⟩))
  · rw [removed_eq]
    intro path hpath
    obtain ⟨f, hf, rfl⟩ := mem_map.mp hpath
    obtain ⟨hf, htaken⟩ := mem_filter.mp hf
    by_contra hnot
    have hkept := Storage.not_taken hstage hf ((mem_wholeFiles _ _).not.mpr hnot) rfl
    rw [hkept] at htaken
    cases htaken
  · rw [removed_eq]
    intro path hpath
    obtain ⟨f, hf, rfl⟩ := mem_map.mp hpath
    exact mem_map_of_mem (mem_filter.mp hf).1

/-- A commit fails, has nothing to write, or makes a put that keeps the rows. -/
theorem committing_cases [DecidableEq ρ] {p : Progress} {w : Storage.Written}
    {made : Phase × Option Put} (h : committing st job p snapshot step w = some made) :
    made = (.raised, none) ∨ made = (.landed p snapshot step snapshot, none) ∨
      ∃ put : Put, made = (.sent p step put, some put) ∧ put.snapshot = snapshot ∧
        (st.Valid snapshot → Fits snapshot step → Built st step put) := by
  unfold committing at h
  cases houtputs : job.outputs st (job.ordering (p.read.getD snapshot)) snapshot step with
  | none =>
    rw [houtputs] at h
    cases h
    exact .inl rfl
  | some outputs =>
    rw [houtputs] at h
    cases hcommit : commitCompaction st snapshot step outputs with
    | error e =>
      simp only [hcommit] at h
      cases h
      exact .inl rfl
    | ok staged =>
      simp only [hcommit] at h
      cases staged with
      | none =>
        cases h
        exact .inr (.inl rfl)
      | some staged =>
        dsimp only at h
        split_ifs at h with hwritten
        cases h
        exact .inr (.inr ⟨_, rfl, rfl, fun hvalid hfits =>
          built_of_stage hvalid hfits houtputs hcommit hwritten.1 hwritten.2⟩)

end

end DeltaSwamp.Compact
