import DeltaSwamp.LogClean.Delete
import DeltaSwamp.LogClean.Retention

/-!
# Gaps in an interrupted cleanup

Deleting stops at the first batch with a failure, but the deletes of that
batch run together. The commits that are left run on to the latest version
exactly when no commit of that batch outlives a later one.
-/

namespace DeltaSwamp.LogClean

open Commit CommitTime Result List
open Vacuum (Store)

theorem parseRest_commit {version : Version} {rest : Text}
    (h : parseRest version rest = some .commit) : rest = ".json".toList := by
  unfold parseRest at h
  split_ifs at h with hjson
  · exact hjson
  · cases h
  · cases h
  · cases htail : rest.dropPrefix? ".checkpoint.".toList with
    | none =>
      simp only [htail] at h
      cases parseCompacted_eq_some h
      rfl
    | some tail =>
      simp only [htail] at h
      rcases parseCheckpoint_eq_some h with ⟨_, _, _, h⟩ | ⟨_, _, _, h⟩ | ⟨_, _, h⟩
      · cases h
      · cases h
      · obtain ⟨_, _, _, _, _, _, _, _, _, h⟩ := parsePart_eq_some h
        cases h

theorem parse_commit {name : Text} {v : Version} (h : parse name = some (v, .commit)) :
    ∃ stem, name = stem ++ ".json".toList ∧ Spells stem 20 v := by
  simp only [parse, Option.bind_eq_bind, Option.bind_eq_some_iff] at h
  obtain ⟨version, hversion, kind, hkind, heq⟩ := h
  cases heq
  refine ⟨name.take 20, ?_, (digits_eq_some_iff _ _ _).mp hversion⟩
  rw [← parseRest_commit hkind, take_append_drop]

theorem isAsciiDigit_iff {c : Char} :
    Text.isAsciiDigit c = true ↔ 48 ≤ c.toNat ∧ c.toNat ≤ 57 := by
  simp only [Text.isAsciiDigit, Bool.and_eq_true, decide_eq_true_eq, Char.le_def,
    UInt32.le_iff_toNat_le, Char.toNat_val]
  exact Iff.rfl

theorem digitValue_eq (c : Char) : Text.digitValue c = c.toNat - 48 := rfl

theorem lt_of_digitValue_lt {c d : Char} (h : Text.digitValue c < Text.digitValue d) : c < d := by
  rw [digitValue_eq, digitValue_eq] at h
  rw [Char.lt_def, UInt32.lt_iff_toNat_lt, Char.toNat_val, Char.toNat_val]
  omega

theorem digitValue_inj {c d : Char} (hc : Text.isAsciiDigit c = true)
    (hd : Text.isAsciiDigit d = true) (h : Text.digitValue c = Text.digitValue d) : c = d := by
  rw [isAsciiDigit_iff] at hc hd
  rw [digitValue_eq, digitValue_eq] at h
  exact Char.toNat_inj.mp (by omega)

theorem append_lt_of_foldl_lt {xs ys : Text} (hlen : xs.length = ys.length)
    (hxs : ∀ c ∈ xs, Text.isAsciiDigit c = true) (hys : ∀ c ∈ ys, Text.isAsciiDigit c = true)
    (rest : Text) (m n : Nat)
    (h : xs.foldl (fun n c => 10 * n + Text.digitValue c) m <
      ys.foldl (fun n c => 10 * n + Text.digitValue c) n) :
    m < n ∨ m = n ∧ xs ++ rest < ys ++ rest := by
  induction xs generalizing ys m n with
  | nil =>
    obtain rfl : ys = [] := eq_nil_of_length_eq_zero hlen.symm
    exact .inl h
  | cons c xs ih =>
    obtain _ | ⟨d, ys⟩ := ys
    · cases hlen
    · simp only [mem_cons, forall_eq_or_imp] at hxs hys
      have hstep := ih (Nat.succ.inj hlen) hxs.2 hys.2 _ _ h
      have hc := isAsciiDigit_iff.mp hxs.1
      have hd := isAsciiDigit_iff.mp hys.1
      simp only [digitValue_eq] at hstep
      simp only [cons_append, cons_lt_cons_iff]
      rcases hstep with hlt | ⟨heq, hlt⟩
      · by_cases hmn : m < n
        · exact .inl hmn
        · refine .inr ⟨by omega, .inl (lt_of_digitValue_lt ?_)⟩
          rw [digitValue_eq, digitValue_eq]
          omega
      · refine .inr ⟨by omega, .inr ⟨digitValue_inj hxs.1 hys.1 ?_, hlt⟩⟩
        rw [digitValue_eq, digitValue_eq]
        omega

theorem eq_of_foldl_eq {xs ys : Text} (hlen : xs.length = ys.length)
    (hxs : ∀ c ∈ xs, Text.isAsciiDigit c = true) (hys : ∀ c ∈ ys, Text.isAsciiDigit c = true)
    (m n : Nat)
    (h : xs.foldl (fun n c => 10 * n + Text.digitValue c) m =
      ys.foldl (fun n c => 10 * n + Text.digitValue c) n) :
    m = n ∧ xs = ys := by
  induction xs generalizing ys m n with
  | nil =>
    obtain rfl : ys = [] := eq_nil_of_length_eq_zero hlen.symm
    exact ⟨h, rfl⟩
  | cons c xs ih =>
    obtain _ | ⟨d, ys⟩ := ys
    · cases hlen
    · simp only [mem_cons, forall_eq_or_imp] at hxs hys
      obtain ⟨hstep, rfl⟩ := ih (Nat.succ.inj hlen) hxs.2 hys.2 _ _ h
      have hc := isAsciiDigit_iff.mp hxs.1
      have hd := isAsciiDigit_iff.mp hys.1
      simp only [digitValue_eq] at hstep
      have hval : Text.digitValue c = Text.digitValue d := by
        rw [digitValue_eq, digitValue_eq]
        omega
      exact ⟨by omega, by rw [digitValue_inj hxs.1 hys.1 hval]⟩

theorem le_of_names {a b : Text} {v w : Version} (ha : parse a = some (v, .commit))
    (hb : parse b = some (w, .commit)) (h : ¬ b < a) : v ≤ w := by
  obtain ⟨x, rfl, hx⟩ := parse_commit ha
  obtain ⟨y, rfl, hy⟩ := parse_commit hb
  by_contra hlt
  have hval : Text.toNat y < Text.toNat x := by
    rw [hx.value, hy.value]
    exact Nat.lt_of_not_le hlt
  rcases append_lt_of_foldl_lt (hy.length_eq.trans hx.length_eq.symm) hy.digits hx.digits
    ".json".toList 0 0 hval with h0 | ⟨-, hbelow⟩
  · exact absurd h0 (Nat.lt_irrefl 0)
  · exact h hbelow

theorem name_unique {a b : Text} {v : Version} (ha : parse a = some (v, .commit))
    (hb : parse b = some (v, .commit)) : a = b := by
  obtain ⟨x, rfl, hx⟩ := parse_commit ha
  obtain ⟨y, rfl, hy⟩ := parse_commit hb
  have heq := eq_of_foldl_eq (hx.length_eq.trans hy.length_eq.symm) hx.digits hy.digits 0 0
    (hx.value.trans hy.value.symm)
  rw [heq.2]

/-- The version of the commit at a key of the log. -/
def keyVersion (key : Text) : Option Version := do
  let name ← key.dropPrefix? "_delta_log/".toList
  match ← parse name with
  | (version, .commit) => some version
  | _ => none

theorem keyVersion_eq_some {key : Text} {v : Version} :
    keyVersion key = some v ↔ ∃ name, key = logKey name ∧ parse name = some (v, .commit) := by
  simp only [keyVersion, Option.bind_eq_bind, Option.bind_eq_some_iff]
  constructor
  · rintro ⟨name, hname, ⟨version, kind⟩, hparse, h⟩
    refine ⟨name, dropPrefix?_some hname, ?_⟩
    cases kind with
    | commit =>
      cases h
      exact hparse
    | _ => cases h
  · rintro ⟨name, rfl, hparse⟩
    exact ⟨name, dropPrefix?_append _ _, _, hparse, rfl⟩

/-- Commits come in the order of their versions. -/
def InOrder (a b : Text) : Prop :=
  ∀ v w, keyVersion a = some v → keyVersion b = some w → v ≤ w

section
variable (t : Table)

theorem keys_of_plan {t : Table} {cutoff : Int} {p : Plan} (h : plan t cutoff = .ok p) :
    ∃ names, t.objects = .ok names ∧ ∃ sidecars referenced,
      p.keys = (expiredKeys t (listLog names) p.keptCheckpoint ++
        doomedKeys t sidecars cutoff referenced).filter (keyAllowed t) := by
  unfold plan at h
  cases hr : refusal t with
  | some reason => simp [hr] at h
  | none =>
    simp only [hr] at h
    obtain ⟨names, hnames, h⟩ := bind_eq_ok_iff.mp h
    obtain ⟨sidecars, hsidecars, h⟩ := bind_eq_ok_iff.mp h
    obtain ⟨expired, hexpired, h⟩ := bind_eq_ok_iff.mp h
    obtain ⟨referenced, hreferenced, h⟩ := bind_eq_ok_iff.mp h
    rw [pure_eq_ok_iff] at h
    subst h
    exact ⟨names, hnames, sidecars, referenced, rfl⟩

variable {name : Text} {v : Version}

theorem keyVersion_logKey : keyVersion (logKey name) = some v ↔ parse name = some (v, .commit) := by
  rw [keyVersion_eq_some]
  constructor
  · rintro ⟨name', heq, hparse⟩
    exact logKey_inj.mp heq ▸ hparse
  · exact fun hparse => ⟨name, rfl, hparse⟩

theorem keyVersion_sidecarKey (s : Sidecar) : keyVersion (sidecarKey s) = none := by
  cases h : keyVersion (sidecarKey s) with
  | none => rfl
  | some v =>
    rw [sidecarKey_eq_logKey, keyVersion_logKey, parse_sidecars] at h
    cases h

theorem listLog_sorted (names : List Text) :
    (listLog names).Pairwise fun a b => ¬ b.name < a.name := by
  have htotal : Std.Total fun a b : Listed => ¬ b.name < a.name :=
    ⟨fun a b => (le_total a.name b.name).imp not_lt.mpr not_lt.mpr⟩
  have htrans : IsTrans Listed fun a b => ¬ b.name < a.name :=
    ⟨fun a b c hab hbc => not_lt.mpr ((not_lt.mp hab).trans (not_lt.mp hbc))⟩
  exact pairwise_insertionSort (fun a b : Listed => ¬ b.name < a.name) _

theorem expiredKeys_inOrder (names : List Text) (kept : Option Version) :
    (expiredKeys t (listLog names) kept).Pairwise InOrder := by
  cases kept with
  | none => exact .nil
  | some k =>
    simp only [expiredKeys, keyUnder_logLocation]
    refine List.Pairwise.filterMap _ ?_ ((listLog_sorted names).filter _)
    intro a b hab x hx y hy v w hv hw
    cases hx
    cases hy
    exact le_of_names (keyVersion_logKey.mp hv) (keyVersion_logKey.mp hw) hab

theorem doomedKeys_keyVersion (sidecars : List Sidecar) (cutoff : Int) (referenced : List Text) :
    ∀ key ∈ doomedKeys t sidecars cutoff referenced, keyVersion key = none := by
  intro key hkey
  obtain ⟨s, _, _, _, rfl⟩ := (mem_doomedKeys t).mp hkey
  exact keyVersion_sidecarKey s

theorem plan_inOrder {t : Table} {cutoff : Int} {p : Plan} (h : plan t cutoff = .ok p) :
    p.keys.Pairwise InOrder := by
  obtain ⟨names, -, sidecars, referenced, hkeys⟩ := keys_of_plan h
  have hnone := doomedKeys_keyVersion t sidecars cutoff referenced
  rw [hkeys]
  refine List.Pairwise.filter _ (pairwise_append.mpr ⟨expiredKeys_inOrder t names _, ?_, ?_⟩)
  · refine pairwise_of_forall_mem_list fun a ha b _ v w hv _ => ?_
    rw [hnone a ha] at hv
    cases hv
  · intro a _ b hb v w _ hw
    rw [hnone b hb] at hw
    cases hw

/-- The versions of the commits of a log. -/
def commits (names : List Text) : List Version :=
  names.filterMap fun name => keyVersion (logKey name)

/-- The commits run without a gap from the oldest one to `latest`. -/
def Unbroken (names : List Text) (latest : Version) : Prop :=
  latest ∈ commits names ∧
    ∀ v ∈ commits names, v ≤ latest ∧ ∀ w, v ≤ w → w ≤ latest → w ∈ commits names

/-- A commit went only if every older one did. -/
def OldestFirst (before after : List Text) : Prop :=
  ∀ v ∈ commits after, ∀ w ∈ commits before, v ≤ w → w ∈ commits after

/-- In the batch of the first failure, no commit that fails comes before one that goes. -/
def FailuresLast (store : Store) (keys : List Text) : Prop :=
  ∀ batch, failingBatch store keys = some batch →
    batch.Pairwise fun a b => (keyVersion a).isSome → (keyVersion b).isSome →
      store.fails a = true → store.fails b = true

theorem mem_commits {names : List Text} :
    v ∈ commits names ↔ ∃ name ∈ names, parse name = some (v, .commit) := by
  simp only [commits, mem_filterMap, keyVersion_logKey]

theorem mem_commits_leftNames {gone names : List Text} :
    v ∈ commits (leftNames gone names) ↔
      ∃ name ∈ names, parse name = some (v, .commit) ∧ logKey name ∉ gone := by
  simp only [mem_commits, leftNames, mem_filter, decide_eq_true_eq]
  constructor
  · rintro ⟨name, ⟨hname, hgone⟩, hparse⟩
    exact ⟨name, hname, hparse, hgone⟩
  · rintro ⟨name, hname, hparse, hgone⟩
    exact ⟨name, ⟨hname, hgone⟩, hparse⟩

variable {t} {cutoff : Int} {p : Plan} {names : List Text} {sidecars : List Sidecar}
  {expired : Option Version}

theorem keyAllowed_logKey {version : Version} {kind : LogFile}
    (hparse : parse name = some (version, kind)) (hunder : t.isUnder (logKey name) = true) :
    keyAllowed t (logKey name) = true := by
  have hstart : "_delta_log/".toList.isPrefixOf (logKey name) = true :=
    isPrefixOf_iff_prefix.mpr (prefix_append _ _)
  have hstaged : "_delta_log/_staged_commits/".toList.isPrefixOf (logKey name) = false := by
    rw [Bool.eq_false_iff]
    intro hpre
    obtain ⟨rest, hrest⟩ := isPrefixOf_iff_prefix.mp hpre
    obtain rfl : "_staged_commits/".toList ++ rest = name := logKey_inj.mp hrest
    rw [show "_staged_commits/".toList ++ rest = '_' :: ("staged_commits/".toList ++ rest) from rfl,
      parse_underscore] at hparse
    cases hparse
  rw [keyAllowed, hstart, hstaged, hunder]
  rfl

theorem Planned.commitKey_mem_iff (h : Planned t cutoff p names sidecars expired)
    (hunder : ∀ name version kind, parse name = some (version, kind) →
      t.isUnder (logKey name) = true) (hname : name ∈ names)
    (hparse : parse name = some (v, .commit)) :
    logKey name ∈ p.keys ↔ ∃ k, p.keptCheckpoint = some k ∧ v < k := by
  rw [h.mem_keys, and_iff_right (keyAllowed_logKey hparse (hunder _ _ _ hparse))]
  have hf : (⟨name, v, .commit⟩ : Listed) ∈ listLog names := mem_listLog.mpr ⟨hname, hparse⟩
  constructor
  · rintro (⟨k, hk, f, hf', hlast, hkey⟩ | ⟨s, _, _, _, hkey⟩)
    · have hsame := (mem_listLog.mp hf').2
      rw [logKey_inj.mp hkey, hparse] at hsame
      obtain ⟨fname, fversion, fkind⟩ := f
      cases hsame
      exact ⟨k, hk, hlast⟩
    · exact absurd hkey.symm (sidecarKey_ne_logKey s hf)
  · rintro ⟨k, hk, hlt⟩
    exact .inl ⟨k, hk, _, hf, hlt, rfl⟩

theorem Planned.commit_of_key (h : Planned t cutoff p names sidecars expired) {key : Text}
    (hkey : key ∈ p.keys) (hv : keyVersion key = some v) :
    ∃ name ∈ names, key = logKey name ∧ parse name = some (v, .commit) := by
  obtain ⟨_, ⟨k, _, f, hf, _, rfl⟩ | ⟨s, _, _, _, rfl⟩⟩ := (h.mem_keys _).mp hkey
  · exact ⟨f.name, (mem_listLog.mp hf).1, rfl, keyVersion_logKey.mp hv⟩
  · rw [keyVersion_sidecarKey] at hv
    cases hv

theorem before_or_after {α : Type} {R : α → α → Prop} {l : List α} (h : l.Pairwise R) {a b : α}
    (ha : a ∈ l) (hb : b ∈ l) (hne : a ≠ b) : R a b ∨ R b a := by
  have hsymm : Std.Symm fun a b => R a b ∨ R b a := ⟨fun _ _ => Or.symm⟩
  have hboth : l.Pairwise fun a b => R a b ∨ R b a := h.imp .inl
  exact hboth.forall ha hb hne

theorem oldestFirst_of_failuresLast (h : Planned t cutoff p names sidecars expired)
    (hunder : ∀ name version kind, parse name = some (version, kind) →
      t.isUnder (logKey name) = true)
    (horder : p.keys.Pairwise InOrder) {store : Store} (hlast : FailuresLast store p.keys) :
    OldestFirst names (leftNames (delete store p.keys).1 names) := by
  intro v hv w hw hle
  obtain ⟨a, ha, hav, hstays⟩ := mem_commits_leftNames.mp hv
  obtain ⟨b, hb, hbw⟩ := mem_commits.mp hw
  refine mem_commits_leftNames.mpr ⟨b, hb, hbw, fun hgone => ?_⟩
  obtain ⟨done, batch, rest, hkeys, hdone, hmem, hfind⟩ :=
    deleteBatches_eq store (chunks batchSize p.keys)
  rw [flatten_chunks] at hkeys
  rw [hkeys] at horder
  rw [delete, hmem] at hgone hstays
  rw [not_or, not_and] at hstays
  have hne : ¬ w ≤ v := by
    intro hge
    obtain rfl : v = w := Nat.le_antisymm hle hge
    rw [name_unique hbw hav] at hgone
    rcases hgone with hgone | ⟨hgone, hok⟩
    · exact hstays.1 hgone
    · exact hstays.2 hgone hok
  have hinOrder : ¬ InOrder (logKey b) (logKey a) := fun hab =>
    hne (hab w v (keyVersion_logKey.mpr hbw) (keyVersion_logKey.mpr hav))
  obtain ⟨-, hlater, hacross⟩ := pairwise_append.mp horder
  obtain ⟨hbatch, -, hbelow⟩ := pairwise_append.mp hlater
  have hkey : logKey a ∈ p.keys := by
    have hb' : logKey b ∈ p.keys := by
      rw [hkeys]
      rcases hgone with hgone | ⟨hgone, -⟩ <;> simp [hgone]
    obtain ⟨k, hk, hlt⟩ := (h.commitKey_mem_iff hunder hb hbw).mp hb'
    exact (h.commitKey_mem_iff hunder ha hav).mpr ⟨k, hk, Nat.lt_of_le_of_lt hle hlt⟩
  rw [hkeys, mem_append, mem_append] at hkey
  rcases hkey with hin | hin | hin
  · exact hstays.1 hin
  · rcases hgone with hgone | ⟨hgone, hok⟩
    · exact hinOrder (hacross _ hgone _ (mem_append_left _ hin))
    · rcases hfind with hfind | ⟨-, rfl, -⟩
      · have hboth := hbatch.and (hlast batch hfind)
        have hkeys_ne : logKey a ≠ logKey b := by
          intro heq
          rw [heq] at hinOrder
          exact hinOrder fun x y hx hy => (Option.some.inj (hx.symm.trans hy)).le
        rcases before_or_after hboth hin hgone hkeys_ne with hab | hba
        · have hfail : store.fails (logKey a) = true := by
            simpa using hstays.2 hin
          rw [hab.2 (by simp [keyVersion_logKey.mpr hav]) (by simp [keyVersion_logKey.mpr hbw])
            hfail] at hok
          cases hok
        · exact hinOrder hba.1
      · cases hin
  · rcases hgone with hgone | ⟨hgone, -⟩
    · exact hinOrder (hacross _ hgone _ (mem_append_right _ hin))
    · exact hinOrder (hbelow _ hgone _ hin)

theorem failuresLast_of_oldestFirst (h : Planned t cutoff p names sidecars expired)
    (horder : p.keys.Pairwise InOrder) {store : Store}
    (hfirst : OldestFirst names (leftNames (delete store p.keys).1 names)) :
    FailuresLast store p.keys := by
  intro found hfound
  obtain ⟨done, batch, rest, hkeys, hdone, hmem, hfind⟩ :=
    deleteBatches_eq store (chunks batchSize p.keys)
  rw [flatten_chunks] at hkeys
  obtain rfl : batch = found := by
    rcases hfind with hfind | ⟨hnone, -, -⟩
    · exact Option.some.inj (hfind.symm.trans hfound)
    · rw [failingBatch, hnone] at hfound
      cases hfound
  have hsub : ∀ key ∈ batch, key ∈ p.keys := fun key hkey => by simp [hkeys, hkey]
  rw [hkeys] at horder
  have hbatch := (pairwise_append.mp (pairwise_append.mp horder).2.1).1
  refine hbatch.imp_of_mem fun {a b} ha hb hab hav hbw hfail => ?_
  obtain ⟨v, hav⟩ := Option.isSome_iff_exists.mp hav
  obtain ⟨w, hbw⟩ := Option.isSome_iff_exists.mp hbw
  have hle := hab v w hav hbw
  obtain ⟨x, hx, rfl, hxv⟩ := h.commit_of_key (hsub _ ha) hav
  obtain ⟨y, hy, rfl, hyw⟩ := h.commit_of_key (hsub _ hb) hbw
  by_contra hok
  have hok : store.fails (logKey y) = false := by simpa using hok
  have hleft : v ∈ commits (leftNames (delete store p.keys).1 names) := by
    refine mem_commits_leftNames.mpr ⟨x, hx, hxv, fun hgone => ?_⟩
    rw [delete, hmem] at hgone
    rcases hgone with hgone | ⟨-, hgone⟩
    · rw [hdone _ hgone] at hfail
      cases hfail
    · rw [hgone] at hfail
      cases hfail
  obtain ⟨z, -, hzw, hstays⟩ :=
    mem_commits_leftNames.mp (hfirst v hleft w (mem_commits.mpr ⟨y, hy, hyw⟩) hle)
  rw [name_unique hzw hyw, delete, hmem] at hstays
  exact hstays (.inr ⟨hb, hok⟩)

theorem Planned.kept_le_snapshot (h : Planned t cutoff p names sidecars expired) {k : Version}
    (hk : p.keptCheckpoint = some k) : k ≤ t.snapshot.version := by
  obtain ⟨e, rfl, hle⟩ := (keptCheckpoint_canKeep (h.kept_eq.symm.trans hk)).old
  obtain ⟨found, -, heq⟩ := bind_eq_ok_iff.mp h.expired_eq
  rw [pure_eq_ok_iff] at heq
  cases found with
  | error e => simp [Except.toOption] at heq
  | ok found =>
    simp only [Except.toOption, Option.map_some, Option.some.injEq] at heq
    exact Nat.le_trans hle (heq ▸ Nat.min_le_right _ _)

theorem Planned.unbroken_iff (h : Planned t cutoff p names sidecars expired)
    (hunder : ∀ name version kind, parse name = some (version, kind) →
      t.isUnder (logKey name) = true)
    {latest : Version} (hlatest : t.snapshot.version ≤ latest) (hrun : Unbroken names latest)
    {gone : List Text} (hgone : gone ⊆ p.keys) :
    Unbroken (leftNames gone names) latest ↔ OldestFirst names (leftNames gone names) := by
  constructor
  · intro hleft v hv w hw hle
    exact (hleft.2 v hv).2 w hle (hrun.2 w hw).1
  · intro hfirst
    obtain ⟨name, hname, hparse⟩ := mem_commits.mp hrun.1
    have hstays : logKey name ∉ gone := fun hmem => by
      obtain ⟨k, hk, hlt⟩ := (h.commitKey_mem_iff hunder hname hparse).mp (hgone hmem)
      exact absurd (Nat.lt_of_lt_of_le hlt ((h.kept_le_snapshot hk).trans hlatest))
        (Nat.lt_irrefl latest)
    refine ⟨mem_commits_leftNames.mpr ⟨name, hname, hparse, hstays⟩, fun v hv => ?_⟩
    obtain ⟨a, ha, hav, -⟩ := mem_commits_leftNames.mp hv
    obtain ⟨hle, hall⟩ := hrun.2 v (mem_commits.mpr ⟨a, ha, hav⟩)
    exact ⟨hle, fun w hvw hwl => hfirst v hv w (hall w hvw hwl) hvw⟩

theorem delete_subset (store : Store) (keys : List Text) : (delete store keys).1 ⊆ keys := by
  intro key hkey
  obtain ⟨done, batch, rest, hkeys, -, hmem, -⟩ :=
    deleteBatches_eq store (chunks batchSize keys)
  rw [flatten_chunks] at hkeys
  rw [hkeys]
  rcases (hmem key).mp hkey with hkey | ⟨hkey, -⟩ <;> simp [hkey]

/-- An interrupted cleanup leaves no gap exactly when, in the batch of the first
failure, the commits that fail come after those that go. -/
theorem cleanup_unbroken_iff
    (hunder : ∀ name version kind, parse name = some (version, kind) →
      t.isUnder (logKey name) = true)
    (h : plan t cutoff = .ok p) (store : Store) :
    ∃ names, t.objects = .ok names ∧
      (OldestFirst names (leftNames (delete store p.keys).1 names) ↔ FailuresLast store p.keys) ∧
      ∀ latest, t.snapshot.version ≤ latest → Unbroken names latest →
        (Unbroken (leftNames (delete store p.keys).1 names) latest ↔
          FailuresLast store p.keys) := by
  obtain ⟨names, sidecars, expired, hp⟩ := planned_of_plan h
  have horder := plan_inOrder h
  have hiff : OldestFirst names (leftNames (delete store p.keys).1 names) ↔
      FailuresLast store p.keys :=
    ⟨failuresLast_of_oldestFirst hp horder, oldestFirst_of_failuresLast hp hunder horder⟩
  refine ⟨names, hp.objects_eq, hiff, fun latest hlatest hrun => ?_⟩
  exact (hp.unbroken_iff hunder hlatest hrun (delete_subset store p.keys)).trans hiff

end

/-- `v2Table` with a classic checkpoint of version 10, commits 8 and 9 as well,
and no sidecar. -/
def commitsTable : Table :=
  { v2Table classicName [] with
    objects := .ok [classicName, "00000000000000000008.json".toList,
      "00000000000000000009.json".toList, "00000000000000000010.json".toList,
      "00000000000000000011.json".toList]
    sidecars := .ok [] }

def commitsPlan : Plan :=
  ⟨some 10, ["_delta_log/00000000000000000008.json".toList,
    "_delta_log/00000000000000000009.json".toList]⟩

/-- A store that answers one delete with an error. -/
def failingStore (failing : Text) : Store where
  child := fun _ => .ok ()
  answer := fun key => if key = failing then .error "503 Slow Down".toList else .deleted
  arrival := id
  arrival_perm := fun _ => .refl _

theorem plan_commitsTable : plan commitsTable 50 = .ok commitsPlan := by decide +kernel

theorem cleanup_unbroken_iff_commitsTable :
    plan commitsTable 50 = .ok commitsPlan ∧ ∃ names, commitsTable.objects = .ok names ∧
      (OldestFirst names (leftNames
          (delete (failingStore "_delta_log/00000000000000000009.json".toList)
            commitsPlan.keys).1 names) ↔
        FailuresLast (failingStore "_delta_log/00000000000000000009.json".toList)
          commitsPlan.keys) ∧
      ∀ latest, commitsTable.snapshot.version ≤ latest → Unbroken names latest →
        (Unbroken (leftNames (delete
            (failingStore "_delta_log/00000000000000000009.json".toList)
              commitsPlan.keys).1 names) latest ↔
          FailuresLast (failingStore "_delta_log/00000000000000000009.json".toList)
            commitsPlan.keys) :=
  ⟨plan_commitsTable, cleanup_unbroken_iff (fun _ _ _ _ => rfl) plan_commitsTable _⟩

/-- The delete of commit 8 fails while that of commit 9, in flight beside it, succeeds. -/
theorem failedDelete_leaves_gap :
    ¬ ∀ t cutoff p, plan t cutoff = .ok p → ∀ (store : Store) names latest,
      t.objects = .ok names → t.snapshot.version ≤ latest → Unbroken names latest →
        Unbroken (leftNames (delete store p.keys).1 names) latest := by
  intro h
  let store := failingStore "_delta_log/00000000000000000008.json".toList
  have hrun : Unbroken [classicName, "00000000000000000008.json".toList,
      "00000000000000000009.json".toList, "00000000000000000010.json".toList,
      "00000000000000000011.json".toList] 11 := by
    have hcommits : commits [classicName, "00000000000000000008.json".toList,
      "00000000000000000009.json".toList, "00000000000000000010.json".toList,
      "00000000000000000011.json".toList] = [8, 9, 10, 11] := by decide +kernel
    have hall : ∀ v ∈ [8, 9, 10, 11], v ≤ 11 ∧ ∀ w ≤ 11, v ≤ w → w ∈ [8, 9, 10, 11] := by decide
    rw [Unbroken, hcommits]
    exact ⟨by decide, fun v hv => ⟨(hall v hv).1, fun w hvw hw => (hall v hv).2 w hw hvw⟩⟩
  have hleft := h _ _ _ plan_commitsTable store _ 11 rfl le_rfl hrun
  have hdeleted : (delete store commitsPlan.keys).1 =
      ["_delta_log/00000000000000000009.json".toList] := by
    simp only [delete, commitsPlan, chunks]
    decide +kernel
  rw [hdeleted] at hleft
  have hcommits : commits (leftNames ["_delta_log/00000000000000000009.json".toList]
      [classicName, "00000000000000000008.json".toList, "00000000000000000009.json".toList,
        "00000000000000000010.json".toList, "00000000000000000011.json".toList]) =
      [8, 10, 11] := by decide +kernel
  rw [Unbroken, hcommits] at hleft
  exact absurd ((hleft.2 8 (by decide)).2 9 (by decide) (by decide)) (by decide)

end DeltaSwamp.LogClean
