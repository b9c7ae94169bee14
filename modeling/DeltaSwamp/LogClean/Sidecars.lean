import DeltaSwamp.LogClean.Plan

/-!
# Sidecars of the checkpoints that stay

A cleanup reads the references of UUID-named checkpoints only, and of the
lines of a JSON one only those a textual filter lets through. Its plan spares
the sidecars of every checkpoint that stays exactly when nothing else needs
to be read.
-/

namespace DeltaSwamp.LogClean

open Commit CommitTime Result List

section
variable (t : Table)

/-- Some sidecar action of the checkpoint file `f` names `path`. -/
def References (f : Listed) (path : Text) : Prop :=
  if f.kind = .v2Checkpoint true then
    ∃ lines, t.lines f.name = .ok lines ∧ ∃ line ∈ lines, ∃ name,
      t.sidecarPath line = .ok (some name) ∧ t.resolve name = .ok path
  else ∃ rows, t.rows f.name = .ok rows ∧ ∃ name ∈ rows, t.resolve name = .ok path

/-- Such an action where `sidecars_of` looks for it. -/
def Sees (f : Listed) (path : Text) : Prop :=
  f.kind.isV2 = true ∧
  if f.kind = .v2Checkpoint true then
    ∃ lines, t.lines f.name = .ok lines ∧ ∃ line ∈ lines, mentionsSidecar line = true ∧ ∃ name,
      t.sidecarPath line = .ok (some name) ∧ t.resolve name = .ok path
  else ∃ rows, t.rows f.name = .ok rows ∧ ∃ name ∈ rows, t.resolve name = .ok path

theorem readAction_eq_ok {name line : Text} {path : Option Text} :
    readAction t name line = .ok path ↔ t.sidecarPath line = .ok path := by
  unfold readAction
  cases t.sidecarPath line <;> simp

variable {f : Listed}

theorem mem_sidecarNames {names : List Text} (h : sidecarNames t f = .ok names) (name : Text) :
    name ∈ names ↔
      if f.kind = .v2Checkpoint true then
        ∃ lines, t.lines f.name = .ok lines ∧ ∃ line ∈ lines, mentionsSidecar line = true ∧
          t.sidecarPath line = .ok (some name)
      else ∃ rows, t.rows f.name = .ok rows ∧ name ∈ rows := by
  unfold sidecarNames at h
  split_ifs at h ⊢ with hjson
  · obtain ⟨lines, hlines, h⟩ := bind_eq_ok_iff.mp h
    obtain ⟨paths, hpaths, h⟩ := bind_eq_ok_iff.mp h
    rw [pure_eq_ok_iff] at h
    have hmem := mem_of_mapM_ok hpaths (some name)
    simp only [mem_filter, readAction_eq_ok] at hmem
    simp only [← h, reduceOption_mem_iff, hmem, hlines, Except.ok.injEq, exists_eq_left',
      and_assoc]
  · simp [h]

theorem mem_sidecarsOf {refs : List Text} (hv2 : f.kind.isV2 = true) (h : sidecarsOf t f = .ok refs)
    (path : Text) : path ∈ refs ↔ Sees t f path := by
  obtain ⟨names, hnames, h⟩ := bind_eq_ok_iff.mp h
  rw [mem_of_mapM_ok h]
  simp only [mem_sidecarNames t hnames, Sees, hv2, true_and]
  split_ifs with hjson
  · constructor
    · rintro ⟨name, ⟨lines, hlines, line, hline, hmentions, hpath⟩, hresolve⟩
      exact ⟨lines, hlines, line, hline, hmentions, name, hpath, hresolve⟩
    · rintro ⟨lines, hlines, line, hline, hmentions, name, hpath, hresolve⟩
      exact ⟨name, ⟨lines, hlines, line, hline, hmentions, hpath⟩, hresolve⟩
  · constructor
    · rintro ⟨name, ⟨rows, hrows, hname⟩, hresolve⟩
      exact ⟨rows, hrows, name, hname, hresolve⟩
    · rintro ⟨rows, hrows, name, hname, hresolve⟩
      exact ⟨name, ⟨rows, hrows, hname⟩, hresolve⟩

/-- `f` is at or above every checkpoint the cleanup could keep. -/
def Stays (names : List Text) (sidecars : List Sidecar) (expired : Option Version) (f : Listed) :
    Prop :=
  ∀ v, CanKeep t (checkpointsOf names) (sidecars.map (sidecarLocation t)) expired v →
    v ≤ f.version

/-- No key of the plan names a sidecar that a checkpoint left in the log references. -/
def SidecarsKept (p : Plan) : Prop :=
  ∀ names sidecars, t.objects = .ok names → t.sidecars = .ok sidecars →
    ∀ key ∈ p.keys, ∀ s ∈ sidecars, keyUnder t.root (sidecarLocation t s) = some key →
      ∀ f ∈ checkpointsOf names, (∀ k, p.keptCheckpoint = some k → k ≤ f.version) →
        ¬ References t f (sidecarLocation t s)

/-- Whatever old sidecar a checkpoint that stays references, one that stays
references it where the code looks. -/
def ReferencesSeen (cutoff : Int) : Prop :=
  ∀ names sidecars expired, t.objects = .ok names → t.sidecars = .ok sidecars →
    expiredVersion t cutoff = .ok expired →
    ∀ s ∈ sidecars, s.lastModified < cutoff → keyAllowed t (sidecarKey s) = true →
      ∀ f ∈ checkpointsOf names, Stays t names sidecars expired f →
        References t f (sidecarLocation t s) →
        ∃ g ∈ checkpointsOf names, Stays t names sidecars expired g ∧
          Sees t g (sidecarLocation t s)

variable {t} {cutoff : Int} {p : Plan} {names : List Text} {sidecars : List Sidecar}
  {expired : Option Version}

theorem Planned.stays_iff (h : Planned t cutoff p names sidecars expired) (f : Listed) :
    (∀ k, p.keptCheckpoint = some k → k ≤ f.version) ↔ Stays t names sidecars expired f := by
  rw [h.kept_eq]
  exact forall_kept_le_iff f.version

theorem isRead_iff (kept : Option Version) (f : Listed) :
    isRead kept f = true ↔ f.kind.isV2 = true ∧ ∀ k, kept = some k → k ≤ f.version := by
  cases kept <;> simp [isRead]

theorem isCheckpoint_of_isV2 {kind : LogFile} (h : kind.isV2 = true) :
    kind.isCheckpoint = true := by
  cases kind <;> simp_all [LogFile.isV2, LogFile.isCheckpoint]

theorem Planned.referenced_iff (h : Planned t cutoff p names sidecars expired)
    (hne : sidecars ≠ []) (path : Text) :
    Referenced t names p.keptCheckpoint path ↔
      ∃ g ∈ checkpointsOf names, Stays t names sidecars expired g ∧ Sees t g path := by
  constructor
  · rintro ⟨f, hf, hread, refs, hrefs, hmem⟩
    obtain ⟨hv2, hkept⟩ := (isRead_iff _ f).mp hread
    exact ⟨f, mem_filter.mpr ⟨hf, isCheckpoint_of_isV2 hv2⟩, (h.stays_iff f).mp hkept,
      (mem_sidecarsOf t hv2 hrefs path).mp hmem⟩
  · rintro ⟨g, hg, hstays, hsees⟩
    have hlisted := (mem_filter.mp hg).1
    have hread := (isRead_iff _ g).mpr ⟨hsees.1, (h.stays_iff g).mpr hstays⟩
    obtain ⟨refs, hrefs⟩ := h.reads hne g hlisted hread
    exact ⟨g, hlisted, hread, refs, hrefs, (mem_sidecarsOf t hsees.1 hrefs path).mpr hsees⟩

theorem logKey_inj {a b : Text} : logKey a = logKey b ↔ a = b := by
  unfold logKey
  generalize "_delta_log/".toList = start
  exact append_right_inj start

theorem sidecarKey_inj {s s' : Sidecar} : sidecarKey s = sidecarKey s' ↔ s.rest = s'.rest := by
  unfold sidecarKey
  generalize "_delta_log/_sidecars/".toList = start
  exact append_right_inj start

theorem sidecarKey_eq_logKey (s : Sidecar) :
    sidecarKey s = logKey ("_sidecars/".toList ++ s.rest) :=
  rfl

theorem sidecarKey_ne_logKey (s : Sidecar) (hf : f ∈ listLog names) :
    logKey f.name ≠ sidecarKey s := by
  intro heq
  rw [sidecarKey_eq_logKey, logKey_inj] at heq
  have hparse := (mem_listLog.mp hf).2
  rw [heq, parse_sidecars] at hparse
  cases hparse

theorem Planned.sidecarKey_mem_iff (h : Planned t cutoff p names sidecars expired) (s : Sidecar)
    (hs : s ∈ sidecars) :
    sidecarKey s ∈ p.keys ↔ keyAllowed t (sidecarKey s) = true ∧
      ∃ s' ∈ sidecars, s'.rest = s.rest ∧ s'.lastModified < cutoff ∧
        ¬ ∃ g ∈ checkpointsOf names, Stays t names sidecars expired g ∧
          Sees t g (sidecarLocation t s') := by
  rw [h.mem_keys]
  refine and_congr_right fun _ => ?_
  constructor
  · rintro (⟨k, _, f, hf, _, hkey⟩ | ⟨s', hs', hold, hnot, hkey⟩)
    · exact absurd hkey (sidecarKey_ne_logKey s hf)
    · rw [h.referenced_iff (ne_nil_of_mem hs)] at hnot
      exact ⟨s', hs', sidecarKey_inj.mp hkey, hold, hnot⟩
  · rintro ⟨s', hs', hrest, hold, hnot⟩
    rw [← h.referenced_iff (ne_nil_of_mem hs)] at hnot
    exact .inr ⟨s', hs', hold, hnot, sidecarKey_inj.mpr hrest⟩

theorem sidecarsKept_iff (h : plan t cutoff = .ok p) :
    SidecarsKept t p ↔ ReferencesSeen t cutoff := by
  obtain ⟨names, sidecars, expired, hp⟩ := planned_of_plan h
  constructor
  · intro hkept names' sidecars' expired' hnames hsidecars hexpired s hs hold hallowed f hf hstays
      href
    obtain rfl : names = names' := Except.ok.inj (hp.objects_eq.symm.trans hnames)
    obtain rfl : sidecars = sidecars' := Except.ok.inj (hp.sidecars_eq.symm.trans hsidecars)
    obtain rfl : expired = expired' := Except.ok.inj (hp.expired_eq.symm.trans hexpired)
    by_contra hnot
    have hkey := (hp.sidecarKey_mem_iff s hs).mpr ⟨hallowed, s, hs, rfl, hold, hnot⟩
    exact hkept names sidecars hnames hsidecars _ hkey s hs (keyUnder_sidecarLocation t s) f hf
      ((hp.stays_iff f).mpr hstays) href
  · intro hseen names' sidecars' hnames hsidecars key hkey s hs hname f hf hkept href
    obtain rfl : names = names' := Except.ok.inj (hp.objects_eq.symm.trans hnames)
    obtain rfl : sidecars = sidecars' := Except.ok.inj (hp.sidecars_eq.symm.trans hsidecars)
    rw [keyUnder_sidecarLocation, Option.some.injEq] at hname
    subst hname
    obtain ⟨hallowed, s', hs', hrest, hold, hnot⟩ := (hp.sidecarKey_mem_iff s hs).mp hkey
    have hlocation : sidecarLocation t s' = sidecarLocation t s := by
      rw [sidecarLocation, hrest, sidecarLocation]
    have hkey' : sidecarKey s' = sidecarKey s := sidecarKey_inj.mpr hrest
    refine hnot (hseen names sidecars expired hnames hsidecars hp.expired_eq s' hs' hold
      (hkey' ▸ hallowed) f hf ((hp.stays_iff f).mp hkept) ?_)
    rw [hlocation]
    exact href

end

/-- Commits 10 and 11 with in-commit timestamps 0 and 60, a checkpoint of
version 10 in `file` with `rows` for sidecars, and one sidecar as old. -/
def v2Table (file : Text) (rows : List Text) : Table where
  root := "t".toList
  catalogManaged := false
  readerFeatures := ["v2Checkpoint".toList]
  writerFeatures := ["v2Checkpoint".toList, "inCommitTimestamp".toList]
  snapshot := ⟨11, true, none, none⟩
  history := {
    latestVersionAsOf := fun timestamp _ =>
      if 60 ≤ timestamp then .ok (11, 60)
      else if 0 ≤ timestamp then .ok (10, 0)
      else .error (.logHistory [])
    firstVersionAfter := fun timestamp _ =>
      if timestamp ≤ 0 then .ok (10, 0)
      else if timestamp ≤ 60 then .ok (11, 60)
      else .error (.logHistory [])
    earliestCommit := fun _ => .ok 10
    listing := .ok [("00000000000000000010.json".toList, 0),
      ("00000000000000000011.json".toList, 60)] }
  objects := .ok [file, "00000000000000000010.json".toList, "00000000000000000011.json".toList]
  sidecars := .ok [⟨"a.parquet".toList, 0⟩]
  lines := fun _ => .ok []
  rows := fun _ => .ok rows
  sidecarPath := fun _ => .ok none
  resolve := fun name => .ok ("t/_delta_log/_sidecars/".toList ++ name)
  buildsFrom := fun v => v = 10
  isUnder := fun _ => true

def classicName : Text := "00000000000000000010.checkpoint.parquet".toList

def classicTable : Table := v2Table classicName ["a.parquet".toList]

def sidecarPlan : Plan := ⟨some 10, ["_delta_log/_sidecars/a.parquet".toList]⟩

theorem plan_classicTable : plan classicTable 50 = .ok sidecarPlan := by decide +kernel

theorem sidecarsKept_iff_classic : plan classicTable 50 = .ok sidecarPlan ∧
    (SidecarsKept classicTable sidecarPlan ↔ ReferencesSeen classicTable 50) :=
  ⟨plan_classicTable, sidecarsKept_iff plan_classicTable⟩

/-- The sidecar of the very checkpoint the cleanup keeps is deleted. -/
theorem classicTable_loses_sidecar :
    ¬ ∀ t cutoff p, plan t cutoff = .ok p → SidecarsKept t p := by
  intro h
  have hkept := h _ _ _ plan_classicTable _ _ rfl rfl _ (mem_singleton.mpr rfl)
    ⟨"a.parquet".toList, 0⟩ (mem_singleton.mpr rfl) (by decide +kernel)
    ⟨classicName, 10, .checkpoint⟩ (by decide +kernel) (fun k hk => by cases hk; exact le_rfl)
  refine hkept ?_
  rw [References, if_neg (by decide)]
  exact ⟨_, rfl, _, mem_singleton.mpr rfl, by rfl⟩

end DeltaSwamp.LogClean
