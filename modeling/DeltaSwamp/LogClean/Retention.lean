import DeltaSwamp.LogClean.Sidecars

/-!
# Every retained version still reads

After a cleanup, whatever part of its plan is carried out, every log file that
ends at the kept checkpoint or above is still there, and so are the sidecars it
references where the cleanup looks for them. Nothing directly in the log goes
that is not a log file by its name.
-/

namespace DeltaSwamp.LogClean

open Commit CommitTime Result

section
variable (t : Table)

/-- A checkpoint of version `v`, all of whose files `hold`: a classic one, every part of a
multi-part one, or a UUID-named one. -/
def Checkpoint (names : List Text) (v : Version) (hold : Listed → Prop) : Prop :=
  (∃ f ∈ listLog names, f.version = v ∧ f.kind = .checkpoint ∧ hold f) ∨
  (∃ n, 0 < n ∧ ∀ i, 1 ≤ i → i ≤ n →
    ∃ f ∈ listLog names, f.version = v ∧ f.kind = .checkpointPart i n ∧ hold f) ∨
  ∃ f ∈ listLog names, f.version = v ∧ f.kind.isV2 = true ∧ hold f

/-- What `complete` asks of one: the sidecars of a UUID-named file, as read, are present. -/
def Complete (names : List Text) (present : List Text) (v : Version) : Prop :=
  Checkpoint names v fun f =>
    f.kind.isV2 = true → ∃ refs, sidecarsOf t f = .ok refs ∧ ∀ r ∈ refs, r ∈ present

/-- Every sidecar that a file of the checkpoint references is present, whatever its name. -/
def Whole (names : List Text) (present : List Text) (v : Version) : Prop :=
  Checkpoint names v fun f => ∀ r, References t f r → r ∈ present

variable {version : Version}

theorem parseRest_part {rest : Text} {part parts : Nat}
    (h : parseRest version rest = some (.checkpointPart part parts)) : 1 ≤ part ∧ part ≤ parts := by
  unfold parseRest at h
  split_ifs at h
  · cases h
  · cases h
  · cases h
  · cases htail : rest.dropPrefix? ".checkpoint.".toList with
    | none =>
      simp only [htail] at h
      cases parseCompacted_eq_some h with
      | checkpointPart _ _ hpos hle _ => exact ⟨hpos, hle⟩
    | some tail =>
      simp only [htail] at h
      rcases parseCheckpoint_eq_some h with ⟨_, _, _, h⟩ | ⟨_, _, _, h⟩ | ⟨_, _, h⟩
      · cases h
      · cases h
      · obtain ⟨_, _, _, _, _, _, _, hzero, hle, h⟩ := parsePart_eq_some h
        cases h
        exact ⟨Nat.pos_of_ne_zero hzero, hle⟩

variable {name : Text} {v : Version}

theorem parse_part {part parts : Nat} (h : parse name = some (v, .checkpointPart part parts)) :
    1 ≤ part ∧ part ≤ parts := by
  simp only [parse, Option.bind_eq_bind, Option.bind_eq_some_iff] at h
  obtain ⟨_, _, kind, hkind, heq⟩ := h
  cases heq
  exact parseRest_part hkind

/-- The files of the checkpoint of version `v`. -/
def filesAt (names : List Text) (v : Version) : List Listed :=
  (checkpointsOf names).filter (·.version = v)

theorem mem_filesAt {names : List Text} {f : Listed} :
    f ∈ filesAt names v ↔ f ∈ listLog names ∧ f.kind.isCheckpoint = true ∧ f.version = v := by
  simp only [filesAt, checkpointsOf, List.mem_filter, decide_eq_true_eq, and_assoc]

variable {n : Nat}

theorem mem_partsOf {names : List Text} {i : Nat} :
    i ∈ partsOf (filesAt names v) n ↔
      ∃ f ∈ listLog names, f.version = v ∧ f.kind = .checkpointPart i n := by
  simp only [partsOf, List.mem_filterMap, mem_filesAt]
  constructor
  · rintro ⟨f, ⟨hf, -, hv⟩, hpart⟩
    cases hkind : f.kind with
    | checkpointPart part parts =>
      simp only [hkind] at hpart
      split_ifs at hpart with hparts
      cases hpart
      exact ⟨f, hf, hv, by rw [hkind, hparts]⟩
    | _ => simp [hkind] at hpart
  · rintro ⟨f, hf, hv, hkind⟩
    exact ⟨f, ⟨hf, by rw [hkind]; rfl, hv⟩, by simp [hkind]⟩

theorem mem_partCounts {names : List Text} :
    n ∈ partCounts (filesAt names v) ↔
      ∃ i, ∃ f ∈ listLog names, f.version = v ∧ f.kind = .checkpointPart i n := by
  simp only [partCounts, List.mem_filterMap, mem_filesAt]
  constructor
  · rintro ⟨f, ⟨hf, -, hv⟩, hcount⟩
    cases hkind : f.kind with
    | checkpointPart part parts =>
      simp only [hkind] at hcount
      cases hcount
      exact ⟨part, f, hf, hv, hkind⟩
    | _ => simp [hkind] at hcount
  · rintro ⟨i, f, hf, hv, hkind⟩
    exact ⟨f, ⟨hf, by rw [hkind]; rfl, hv⟩, by simp [hkind]⟩

theorem part_bounds {names : List Text} {f : Listed} {i : Nat} (hf : f ∈ listLog names)
    (hkind : f.kind = .checkpointPart i n) : 1 ≤ i ∧ i ≤ n := by
  have hparse := (mem_listLog.mp hf).2
  rw [hkind] at hparse
  exact parse_part hparse

theorem dedup_length_eq_iff {parts : List Nat} (hparts : ∀ i ∈ parts, 1 ≤ i ∧ i ≤ n) :
    parts.dedup.length = n ↔ ∀ i, 1 ≤ i → i ≤ n → i ∈ parts := by
  have hsub : parts.toFinset ⊆ Finset.Icc 1 n := by
    intro i hi
    exact Finset.mem_Icc.mpr (hparts i (List.mem_toFinset.mp hi))
  have hcard : (Finset.Icc 1 n).card = n := by simp
  rw [← List.card_toFinset]
  constructor
  · intro h i hlow hhigh
    have heq := Finset.eq_of_subset_of_card_le hsub (by rw [hcard, h])
    exact List.mem_toFinset.mp (heq ▸ Finset.mem_Icc.mpr ⟨hlow, hhigh⟩)
  · intro h
    have heq : parts.toFinset = Finset.Icc 1 n := by
      refine Finset.Subset.antisymm hsub fun i hi => ?_
      obtain ⟨hlow, hhigh⟩ := Finset.mem_Icc.mp hi
      exact List.mem_toFinset.mpr (h i hlow hhigh)
    rw [heq, hcard]

theorem parts_complete_iff {names : List Text} :
    (partCounts (filesAt names v)).any
        (fun n => (partsOf (filesAt names v) n).dedup.length = n) = true ↔
      ∃ n, 0 < n ∧ ∀ i, 1 ≤ i → i ≤ n →
        ∃ f ∈ listLog names, f.version = v ∧ f.kind = .checkpointPart i n := by
  have hbounds : ∀ n, ∀ i ∈ partsOf (filesAt names v) n, 1 ≤ i ∧ i ≤ n := by
    intro n i hi
    obtain ⟨f, hf, -, hkind⟩ := mem_partsOf.mp hi
    exact part_bounds hf hkind
  simp only [List.any_eq_true, decide_eq_true_eq, mem_partCounts,
    dedup_length_eq_iff (hbounds _), mem_partsOf]
  constructor
  · rintro ⟨n, ⟨i, f, hf, -, hkind⟩, hall⟩
    have hpart := part_bounds hf hkind
    exact ⟨n, by omega, hall⟩
  · rintro ⟨n, hpos, hall⟩
    exact ⟨n, ⟨n, hall n hpos le_rfl⟩, hall⟩

theorem complete_iff (names present : List Text) (v : Version) :
    complete t (filesAt names v) present = true ↔ Complete t names present v := by
  have hclassic : (filesAt names v).any (fun f => f.kind = .checkpoint) = true ↔
      ∃ f ∈ listLog names, f.version = v ∧ f.kind = .checkpoint := by
    simp only [List.any_eq_true, decide_eq_true_eq, mem_filesAt]
    constructor
    · rintro ⟨f, ⟨hf, -, hv⟩, hkind⟩
      exact ⟨f, hf, hv, hkind⟩
    · rintro ⟨f, hf, hv, hkind⟩
      exact ⟨f, ⟨hf, by rw [hkind]; rfl, hv⟩, hkind⟩
  have hfree : ∀ {f : Listed} {kind : LogFile} {p : Prop}, kind.isV2 = false →
      (f.kind = kind ∧ (f.kind.isV2 = true → p) ↔ f.kind = kind) := by
    intro f kind p hkind
    refine and_iff_left_of_imp fun hf hv2 => ?_
    rw [hf, hkind] at hv2
    cases hv2
  rw [complete, Bool.or_eq_true, Bool.or_eq_true, hclassic, parts_complete_iff, or_assoc]
  simp only [Complete, Checkpoint, hfree (show LogFile.checkpoint.isV2 = false from rfl),
    hfree (show (LogFile.checkpointPart _ _).isV2 = false from rfl)]
  refine or_congr Iff.rfl (or_congr Iff.rfl ?_)
  simp only [List.any_eq_true, Bool.and_eq_true, mem_filesAt]
  constructor
  · rintro ⟨f, ⟨hf, _, hv⟩, hv2, hrefs⟩
    cases hread : sidecarsOf t f with
    | error e => simp [hread] at hrefs
    | ok refs => exact ⟨f, hf, hv, hv2, fun _ => ⟨refs, hread, by simpa [hread] using hrefs⟩⟩
  · rintro ⟨f, hf, hv, hv2, hrefs⟩
    obtain ⟨refs, hread, hrefs⟩ := hrefs hv2
    exact ⟨f, ⟨hf, isCheckpoint_of_isV2 hv2, hv⟩, hv2, by simpa [hread] using hrefs⟩

/-- The listings after the objects of some keys are gone. -/
def leftNames (gone : List Text) (names : List Text) : List Text :=
  names.filter fun name => logKey name ∉ gone

def leftSidecars (gone : List Text) (sidecars : List Sidecar) : List Sidecar :=
  sidecars.filter fun s => sidecarKey s ∉ gone

/-- Version `v` replays from the checkpoint of version `k`: that checkpoint is
whole and every commit after it up to `v` is there. -/
def Replays (names : List Text) (sidecars : List Sidecar) (k v : Version) : Prop :=
  Whole t names (sidecars.map (sidecarLocation t)) k ∧
    ∀ w, k < w → w ≤ v → ∃ name ∈ names, parse name = some (w, .commit)

/-- `v` was committed at or before the cutoff, by its file's time made
monotonic or by its in-commit timestamp. -/
def CommittedBy (inCommitTime : Version → Option Int) (cutoff : Int) (v : Version) : Prop :=
  (∃ times, fileCommitTimes t.snapshot t.history = .ok times ∧
    ∃ time ≤ cutoff, (v, time) ∈ times) ∨
  ∃ time ≤ cutoff, inCommitTime v = some time

/-- The version a log file of this kind is last of use to. -/
def lastUse (version : Version) : LogFile → Version
  | .compacted upTo => upTo
  | _ => version

/-- Whatever old sidecar a file of the checkpoint of version `k` references, a checkpoint that
stays references it where the code looks. -/
def SeenAt (cutoff : Int) (names : List Text) (sidecars : List Sidecar) (expired : Option Version)
    (k : Version) : Prop :=
  ∀ s ∈ sidecars, s.lastModified < cutoff → keyAllowed t (sidecarKey s) = true →
    ∀ f ∈ checkpointsOf names, f.version = k → References t f (sidecarLocation t s) →
      ∃ g ∈ checkpointsOf names, Stays t names sidecars expired g ∧ Sees t g (sidecarLocation t s)

/-- What a plan leaves: the listings' log files that end at the kept checkpoint
or above, all of them when none is kept, and everything that is no log file. -/
structure Retains (inCommitTime : Version → Option Int) (cutoff : Int) (p : Plan)
    (names : List Text) (sidecars : List Sidecar) (expired : Option Version) : Prop where
  kept_old : ∀ k, p.keptCheckpoint = some k → ∃ v, CommittedBy t inCommitTime cutoff v ∧ k ≤ v
  kept_complete : ∀ k, p.keptCheckpoint = some k →
    Complete t names (sidecars.map (sidecarLocation t)) k
  needed_kept : ∀ k, p.keptCheckpoint = some k → ∀ name version kind,
    LogName name version kind → k ≤ lastUse version kind → logKey name ∉ p.keys
  replays : ∀ k, p.keptCheckpoint = some k → SeenAt t cutoff names sidecars expired k →
    ∀ gone, gone ⊆ p.keys → ∀ v, Replays t names sidecars k v →
      Replays t (leftNames gone names) (leftSidecars gone sidecars) k v
  none_deleted :
    (∀ e, expired = some e → ∀ v ≤ e, ¬ Complete t names (sidecars.map (sidecarLocation t)) v) →
      ∀ name, '/' ∉ name → logKey name ∉ p.keys
  forms_only : ∀ name, '/' ∉ name → PartsFit name →
    (¬ ∃ version kind, LogName name version kind) → logKey name ∉ p.keys

variable {t} {cutoff : Int} {p : Plan} {names : List Text} {sidecars : List Sidecar}
  {expired : Option Version}

variable {k : Version}

theorem CanKeep.complete {present : List Text}
    (h : CanKeep t (checkpointsOf names) present expired k) :
    Complete t names present k := by
  have husable := h.usable
  rw [LogClean.usable, Bool.and_eq_true] at husable
  exact (complete_iff t names present k).mp husable.1

theorem Planned.logKey_mem (h : Planned t cutoff p names sidecars expired)
    (hkey : logKey name ∈ p.keys) (hname : '/' ∉ name) :
    ∃ k, p.keptCheckpoint = some k ∧ ∃ f ∈ listLog names, f.last < k ∧ f.name = name := by
  obtain ⟨_, ⟨k, hk, f, hf, hlast, heq⟩ | ⟨s, _, _, _, heq⟩⟩ := (h.mem_keys _).mp hkey
  · exact ⟨k, hk, f, hf, hlast, logKey_inj.mp heq⟩
  · rw [sidecarKey_eq_logKey, logKey_inj] at heq
    exact absurd (heq ▸ List.mem_append_left _ (by decide : '/' ∈ "_sidecars/".toList)) hname

theorem Planned.logKey_notMem (h : Planned t cutoff p names sidecars expired)
    (hk : p.keptCheckpoint = some k) {kind : LogFile} (hparse : parse name = some (version, kind))
    (hlast : k ≤ lastUse version kind) : logKey name ∉ p.keys := by
  intro hkey
  obtain ⟨_, ⟨k', hk', f, hf, hbelow, heq⟩ | ⟨s, _, _, _, heq⟩⟩ := (h.mem_keys _).mp hkey
  · obtain rfl : k = k' := Option.some.inj (hk.symm.trans hk')
    have hf' := (mem_listLog.mp hf).2
    rw [logKey_inj.mp heq, hparse] at hf'
    cases hf'
    have hsame : f.last = lastUse f.version f.kind := by
      cases hkind : f.kind <;> simp [Listed.last, lastUse, hkind]
    exact absurd (hsame ▸ hbelow) (Nat.not_lt.mpr hlast)
  · rw [sidecarKey_eq_logKey, logKey_inj] at heq
    rw [← heq, parse_sidecars] at hparse
    cases hparse

variable {gone : List Text}

theorem Planned.mem_leftNames (h : Planned t cutoff p names sidecars expired)
    (hk : p.keptCheckpoint = some k) (hgone : gone ⊆ p.keys) {kind : LogFile} (hname : name ∈ names)
    (hparse : parse name = some (version, kind)) (hlast : k ≤ lastUse version kind) :
    name ∈ leftNames gone names := by
  refine List.mem_filter.mpr ⟨hname, ?_⟩
  have hnot := h.logKey_notMem hk hparse hlast
  simpa using fun hmem => hnot (hgone hmem)

theorem Planned.mem_leftSidecars (h : Planned t cutoff p names sidecars expired)
    (hseen : SeenAt t cutoff names sidecars expired k) (hgone : gone ⊆ p.keys) {f : Listed}
    (hf : f ∈ checkpointsOf names) (hv : f.version = k) {s : Sidecar} (hs : s ∈ sidecars)
    (href : References t f (sidecarLocation t s)) : s ∈ leftSidecars gone sidecars := by
  refine List.mem_filter.mpr ⟨hs, ?_⟩
  have hnot : sidecarKey s ∉ p.keys := by
    intro hkey
    obtain ⟨hallowed, s', hs', hrest, hold, hunseen⟩ := (h.sidecarKey_mem_iff s hs).mp hkey
    have hlocation : sidecarLocation t s' = sidecarLocation t s := by
      rw [sidecarLocation, hrest, sidecarLocation]
    have hkey' : sidecarKey s' = sidecarKey s := sidecarKey_inj.mpr hrest
    exact hunseen (hseen s' hs' hold (hkey' ▸ hallowed) f hf hv (hlocation ▸ href))
  simpa using fun hmem => hnot (hgone hmem)

theorem lastUse_checkpoint {kind : LogFile} (h : kind.isCheckpoint = true) :
    lastUse version kind = version := by
  cases kind <;> simp_all [LogFile.isCheckpoint, lastUse]

theorem Checkpoint.imp {names' : List Text} {hold hold' : Listed → Prop}
    (h : Checkpoint names v hold) (himp : ∀ f ∈ checkpointsOf names, f.version = v → hold f →
      f ∈ listLog names' ∧ hold' f) : Checkpoint names' v hold' := by
  have hchecked : ∀ f ∈ listLog names, f.kind.isCheckpoint = true → f ∈ checkpointsOf names :=
    fun f hf hkind => List.mem_filter.mpr ⟨hf, hkind⟩
  obtain ⟨f, hf, hv, hkind, hholds⟩ | ⟨n, hpos, hparts⟩ | ⟨f, hf, hv, hv2, hholds⟩ := h
  · obtain ⟨hf', hholds'⟩ := himp f (hchecked f hf (by rw [hkind]; rfl)) hv hholds
    exact .inl ⟨f, hf', hv, hkind, hholds'⟩
  · refine .inr (.inl ⟨n, hpos, fun i hlow hhigh => ?_⟩)
    obtain ⟨f, hf, hv, hkind, hholds⟩ := hparts i hlow hhigh
    obtain ⟨hf', hholds'⟩ := himp f (hchecked f hf (by rw [hkind]; rfl)) hv hholds
    exact ⟨f, hf', hv, hkind, hholds'⟩
  · obtain ⟨hf', hholds'⟩ := himp f (hchecked f hf (isCheckpoint_of_isV2 hv2)) hv hholds
    exact .inr (.inr ⟨f, hf', hv, hv2, hholds'⟩)

theorem Planned.whole_left (h : Planned t cutoff p names sidecars expired)
    (hk : p.keptCheckpoint = some k) (hseen : SeenAt t cutoff names sidecars expired k)
    (hgone : gone ⊆ p.keys) (hwhole : Whole t names (sidecars.map (sidecarLocation t)) k) :
    Whole t (leftNames gone names) ((leftSidecars gone sidecars).map (sidecarLocation t)) k := by
  refine hwhole.imp fun f hf hv hpresent => ⟨?_, fun r href => ?_⟩
  · obtain ⟨hlisted, hkind⟩ := List.mem_filter.mp hf
    obtain ⟨hname, hparse⟩ := mem_listLog.mp hlisted
    have hlast : k ≤ lastUse f.version f.kind := by rw [lastUse_checkpoint hkind, hv]
    exact mem_listLog.mpr ⟨h.mem_leftNames hk hgone hname hparse hlast, hparse⟩
  · obtain ⟨s, hs, rfl⟩ := List.mem_map.mp (hpresent r href)
    exact List.mem_map.mpr ⟨s, h.mem_leftSidecars hseen hgone hf hv hs href, rfl⟩

theorem Planned.kept_old (h : Planned t cutoff p names sidecars expired)
    {inCommitTime : Version → Option Int}
    (hhistory : ∀ v time, t.history.latestVersionAsOf cutoff .published = .ok (v, time) →
      inCommitTime v = some time ∧ time ≤ cutoff) (hk : p.keptCheckpoint = some k) :
    ∃ v, CommittedBy t inCommitTime cutoff v ∧ k ≤ v := by
  obtain ⟨e, rfl, hle⟩ := (keptCheckpoint_canKeep (h.kept_eq.symm.trans hk)).old
  obtain ⟨found, hfound, heq⟩ := bind_eq_ok_iff.mp h.expired_eq
  rw [pure_eq_ok_iff] at heq
  cases found with
  | error e => simp [Except.toOption] at heq
  | ok found =>
    obtain ⟨v, time⟩ := found
    simp only [Except.toOption, Option.map_some, Option.some.injEq] at heq
    refine ⟨v, ?_, Nat.le_trans hle (heq ▸ Nat.min_le_left _ _)⟩
    rcases lookup_atOrBefore hfound with hkernel | ⟨times, htimes, hmem, htime⟩
    · obtain ⟨hcommit, htime⟩ := hhistory v time hkernel
      exact .inr ⟨time, htime, hcommit⟩
    · exact .inl ⟨times, htimes, time, htime, hmem⟩

/-- A cleanup leaves every version from the kept checkpoint on its base and its log. -/
theorem plan_retains {inCommitTime : Version → Option Int}
    (hhistory : ∀ v time, t.history.latestVersionAsOf cutoff .published = .ok (v, time) →
      inCommitTime v = some time ∧ time ≤ cutoff)
    (h : plan t cutoff = .ok p) :
    ∃ names sidecars expired, t.objects = .ok names ∧ t.sidecars = .ok sidecars ∧
      expiredVersion t cutoff = .ok expired ∧
      Retains t inCommitTime cutoff p names sidecars expired := by
  obtain ⟨names, sidecars, expired, hp⟩ := planned_of_plan h
  have hkeep : ∀ k, p.keptCheckpoint = some k →
      CanKeep t (checkpointsOf names) (sidecars.map (sidecarLocation t)) expired k :=
    fun k hk => keptCheckpoint_canKeep (hp.kept_eq.symm.trans hk)
  refine ⟨names, sidecars, expired, hp.objects_eq, hp.sidecars_eq, hp.expired_eq, ?_⟩
  constructor
  · exact fun k hk => hp.kept_old hhistory hk
  · exact fun k hk => (hkeep k hk).complete
  · exact fun k hk name version kind hname => hp.logKey_notMem hk (parse_complete hname)
  · rintro k hk hseen gone hgone v ⟨hwhole, hcommits⟩
    refine ⟨hp.whole_left hk hseen hgone hwhole, fun w hlow hhigh => ?_⟩
    obtain ⟨name, hname, hparse⟩ := hcommits w hlow hhigh
    exact ⟨name, hp.mem_leftNames hk hgone hname hparse hlow.le, hparse⟩
  · intro hnone name hslash hkey
    obtain ⟨k, hk, _⟩ := hp.logKey_mem hkey hslash
    obtain ⟨e, he, hle⟩ := (hkeep k hk).old
    exact hnone e he k hle (hkeep k hk).complete
  · intro name hslash hfit hforms hkey
    obtain ⟨k, _, f, hf, _, rfl⟩ := hp.logKey_mem hkey hslash
    exact hforms ⟨f.version, f.kind, parse_sound hfit (mem_listLog.mp hf).2⟩

end

/-- The in-commit timestamps of `v2Table`'s two commits. -/
def v2CommitTime (v : Version) : Option Int :=
  if v = 10 then some 0 else if v = 11 then some 60 else none

/-- A UUID-named checkpoint of version 10, whose one sidecar is spared. -/
def uuidTable : Table :=
  v2Table "00000000000000000010.checkpoint.01234567-89ab-cdef-0123-456789abcdef.parquet".toList
    ["a.parquet".toList]

theorem plan_retains_uuid :
    plan uuidTable 50 = .ok ⟨some 10, []⟩ ∧
    ∃ names sidecars expired, uuidTable.objects = .ok names ∧
      uuidTable.sidecars = .ok sidecars ∧ expiredVersion uuidTable 50 = .ok expired ∧
      Retains uuidTable v2CommitTime 50 ⟨some 10, []⟩ names sidecars expired := by
  have hplan : plan uuidTable 50 = .ok ⟨some 10, []⟩ := by decide +kernel
  refine ⟨hplan, plan_retains ?_ hplan⟩
  intro v time h
  cases h
  exact ⟨rfl, by decide⟩

def fileName (key : Text) : Text := (key.reverse.takeWhile (· ≠ '/')).reverse

/-- A cleanup deletes an old sidecar nothing references, and its name is no
form of a log file's. -/
theorem unreferenced_sidecar_deleted :
    ¬ ∀ t cutoff p, plan t cutoff = .ok p →
      ∀ key ∈ p.keys, ∃ version kind, LogName (fileName key) version kind := by
  intro h
  have hplan : plan (v2Table classicName []) 50 = .ok sidecarPlan := by decide +kernel
  obtain ⟨version, kind, hname⟩ := h _ _ _ hplan _ (List.mem_singleton.mpr rfl)
  have hparse := parse_complete hname
  have hnone : parse (fileName "_delta_log/_sidecars/a.parquet".toList) = none := by
    decide +kernel
  rw [hnone] at hparse
  cases hparse

end DeltaSwamp.LogClean
