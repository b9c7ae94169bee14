import DeltaSwamp.Metadata.Timestamps

/-!
# In-commit timestamps over a run

What a metadata change does to the properties of in-commit timestamps, and from
it that every log such changes leave has the timestamps it records.
-/

namespace DeltaSwamp.Metadata

open List

section
variable {py : Python} {state : TableState} {change : Change}

variable {a b : Config}

theorem stamping_congr (h : b.get inCommit = a.get inCommit) : stamping py b = stamping py a := by
  simp [stamping, h]

/-- The two properties that record the enablement. -/
def SameRecord (a b : Config) : Prop :=
  b.get enablementVersion = a.get enablementVersion ∧
    b.get enablementTimestamp = a.get enablementTimestamp

/-- The two properties once timestamps are switched on. -/
def NewRecord (py : Python) (version : Int) (config : Config) : Prop :=
  config.get enablementVersion = some (py.str (version + 1)) ∧
    config.get enablementTimestamp = some unresolved

theorem SameStamps.record (h : SameStamps a b) : SameRecord a b := h.2

/-- Where timestamps are on after a change, they were on and the record stays, or they are
switched on and the record is new. -/
structure Restamps (py : Python) (state : TableState) (config : Config) : Prop where
  on : stamping py state.configuration = true → SameRecord state.configuration config
  off : stamping py state.configuration = false → stamping py config = true →
    NewRecord py state.version config

variable {config : Config}

theorem SameStamps.restamps (h : SameStamps state.configuration config) :
    Restamps py state config where
  on _ := h.record
  off hoff hon := by
    rw [stamping_congr h.1, hoff] at hon
    cases hon

theorem normaliseValue_boolean {key value : String} {raw : RawValue} {schema : DataType}
    (hkey : key ∈ booleanKeys) (h : normaliseValue py key raw schema = .ok value) :
    value = py.lower (strip py (raw.given py)) ∧ (value = "true" ∨ value = "false") := by
  have hcases : normaliseValue py key raw schema =
      if raw = .none then .error (.badProperty key)
      else if py.lower (strip py (raw.given py)) = "true" ∨
          py.lower (strip py (raw.given py)) = "false" then
        .ok (py.lower (strip py (raw.given py)))
      else .error (.badProperty key) := by
    unfold normaliseValue
    simp only [if_pos hkey]
    cases raw <;> rfl
  rw [hcases] at h
  split_ifs at h with hnone hlowered
  cases h
  exact ⟨rfl, hlowered⟩

theorem inCommit_boolean : inCommit ∈ booleanKeys := by decide

variable {s s' : Settings}

/-- One property set, and what becomes of the stamps. -/
theorem setProperty_stamps {property : String × RawValue}
    (h : setProperty py state s property = .ok s') :
    (canonicalKey py property.1 ≠ inCommit ∧ SameStamps s.configuration s'.configuration) ∨
    (canonicalKey py property.1 = inCommit ∧
      (stamping py s'.configuration = true →
        py.lower (strip py (property.2.given py)) = "true") ∧
      (stamping py state.configuration = true → SameRecord s.configuration s'.configuration) ∧
      (stamping py state.configuration = false → stamping py s'.configuration = true →
        NewRecord py state.version s'.configuration)) := by
  unfold setProperty at h
  simp only at h
  split_ifs at h with hversion hconstraint hfeature
  · obtain ⟨name, -, rfl⟩ := Result.map_eq_ok_iff.mp h
    left
    constructor
    · intro heq
      rw [heq] at hfeature
      exact absurd hfeature (by decide)
    · exact ⟨rfl, rfl, rfl⟩
  · obtain ⟨-, hknown, value, mapping, hvalue, hmapping, rfl⟩ := setValue_ok h
    have hsame : SameStamps s.configuration mapping.2 := by
      by_cases hkey : canonicalKey py property.1 = cmMode
      · rw [if_pos hkey] at hmapping
        unfold enableColumnMapping at hmapping
        simp only at hmapping
        split_ifs at hmapping
        · cases hmapping
          exact ⟨rfl, rfl, rfl⟩
        · cases hmapping
          simp [SameStamps, Config.get_set, inCommit, enablementVersion, enablementTimestamp, cmMax]
      · rw [if_neg hkey] at hmapping
        cases hmapping
        exact ⟨rfl, rfl, rfl⟩
    have hrecord : canonicalKey py property.1 ≠ enablementVersion ∧
        canonicalKey py property.1 ≠ enablementTimestamp := by
      constructor
      · intro heq
        obtain hmem | hrow := hknown (heq ▸ by decide)
        · exact absurd (heq ▸ hmem) (by decide)
        · exact absurd (heq ▸ hrow) (by decide)
      · intro heq
        obtain hmem | hrow := hknown (heq ▸ by decide)
        · exact absurd (heq ▸ hmem) (by decide)
        · exact absurd (heq ▸ hrow) (by decide)
    by_cases hkey : canonicalKey py property.1 = inCommit
    · right
      rw [hkey] at hvalue
      obtain ⟨heq, hboolean⟩ := normaliseValue_boolean inCommit_boolean hvalue
      have hget : ∀ config : Config, stamping py (config.set inCommit value) =
          decide (py.lower value = "true") := by
        simp [stamping, Config.get_set]
      apply And.intro hkey
      simp only [hkey, decide_true, Bool.true_and, hget, decide_eq_true_eq]
      constructor
      · intro htrue
        obtain rfl | rfl := hboolean
        · exact heq.symm
        · rw [lower_false] at htrue
          exact absurd htrue (by decide)
      · constructor
        · intro hon
          have hnone : (decide (py.lower ((state.configuration.get inCommit).getD "false") ≠
              "true")) = false := by
            simpa [stamping] using hon
          simp only [hnone, Bool.and_false, Bool.false_eq_true, if_false]
          simpa [SameRecord, Config.get_set, inCommit, enablementVersion, enablementTimestamp]
            using hsame.record
        · intro hoff htrue
          have hsome : (decide (py.lower ((state.configuration.get inCommit).getD "false") ≠
              "true")) = true := by
            simpa [stamping] using hoff
          simp only [hsome, htrue, decide_true, Bool.and_self, if_true]
          simp [NewRecord, Config.get_set, inCommit, enablementVersion, enablementTimestamp,
            unresolved]
    · left
      apply And.intro hkey
      simp only [hkey, decide_false, Bool.false_and, Bool.false_eq_true, if_false, SameStamps,
        Config.get_set, if_neg (Ne.symm hkey), if_neg (Ne.symm hrecord.1),
        if_neg (Ne.symm hrecord.2)]
      exact hsame

theorem SameRecord.trans {c : Config} (h : SameRecord a b) (h' : SameRecord b c) :
    SameRecord a c := ⟨h'.1.trans h.1, h'.2.trans h.2⟩

theorem NewRecord.congr {version : Int} (h : NewRecord py version a) (hsame : SameRecord a b) :
    NewRecord py version b := ⟨hsame.1.trans h.1, hsame.2.trans h.2⟩

theorem Restamps.step {property : String × RawValue} (h : Restamps py state s.configuration)
    (hs : setProperty py state s property = .ok s') : Restamps py state s'.configuration := by
  obtain ⟨-, hsame⟩ | ⟨-, -, hon, hoff⟩ := setProperty_stamps hs
  · constructor
    · intro hstate
      exact (h.on hstate).trans hsame.record
    · intro hstate hnow
      rw [stamping_congr hsame.1] at hnow
      exact (h.off hstate hnow).congr hsame.record
  · constructor
    · intro hstate
      exact (h.on hstate).trans (hon hstate)
    · exact hoff

variable {properties : List (String × RawValue)}

theorem Restamps.run (h : Restamps py state s.configuration)
    (hs : properties.foldlM (setProperty py state) s = .ok s') :
    Restamps py state s'.configuration := by
  induction properties generalizing s with
  | nil =>
    cases hs
    exact h
  | cons property properties ih =>
    rw [foldlM_cons] at hs
    obtain ⟨next, hnext, hs⟩ := Result.bind_eq_ok_iff.mp hs
    exact ih (h.step hnext) hs

theorem asked_of_stamping {last : Option RawValue} (hlast : stamping py s.configuration = true →
      (last.any fun raw => py.lower (strip py (raw.given py)) = "true") = true)
    (hs : properties.foldlM (setProperty py state) s = .ok s')
    (hon : stamping py s'.configuration = true) :
    ((asked py last properties).any fun raw => py.lower (strip py (raw.given py)) = "true") =
      true := by
  induction properties generalizing s last with
  | nil =>
    cases hs
    exact hlast hon
  | cons property properties ih =>
    rw [foldlM_cons] at hs
    obtain ⟨next, hnext, hs⟩ := Result.bind_eq_ok_iff.mp hs
    rw [asked, foldl_cons]
    apply ih _ hs
    intro hstamping
    obtain ⟨hkey, hsame⟩ | ⟨hkey, htrue, -⟩ := setProperty_stamps hnext
    · rw [if_neg hkey]
      rw [stamping_congr hsame.1] at hstamping
      exact hlast hstamping
    · rw [if_pos hkey]
      simpa using htrue hstamping

theorem sameStamps_refl (config : Config) : SameStamps config config := ⟨rfl, rfl, rfl⟩

theorem sameStamps_set {key value : String}
    (hkey : key ≠ inCommit ∧ key ≠ enablementVersion ∧ key ≠ enablementTimestamp) :
    SameStamps config (config.set key value) := by
  simp [SameStamps, Config.get_set, Ne.symm hkey.1, Ne.symm hkey.2.1, Ne.symm hkey.2.2]

/-- The configuration an accepted change leaves. -/
def Change.configuration (change : Change) (state : TableState) : Config :=
  (change.metadata.getD state.metadata).configuration

theorem unsetKeys_record {ifExists : Bool} {keys removed : List String} {r : Config × List String}
    (h : unsetKeys py ifExists config removed keys = .ok r) :
    SameRecord config r.1 ∧ (r.1.get inCommit = config.get inCommit ∨ r.1.get inCommit = none) := by
  apply And.intro _ (unsetKeys_cases h inCommit)
  induction keys generalizing config removed with
  | nil =>
    cases h
    exact ⟨rfl, rfl⟩
  | cons raw keys ih =>
    rw [unsetKeys] at h
    split_ifs at h with hrefused hstamp htracking hthere hexists
    · exact ih h
    · have hkey : ∀ key, startsWith key "delta.inCommitTimestampEnablement" = true →
          key ≠ canonicalKey py raw := by
        intro key hstart heq
        exact hstamp (heq ▸ hstart)
      apply SameRecord.trans _ (ih h)
      constructor
      · rw [Config.get_remove, if_neg (hkey _ (by decide))]
      · rw [Config.get_remove, if_neg (hkey _ (by decide))]

/-- What an accepted change that asks for timestamps, or does not, makes of the configuration. -/
structure Changes (py : Python) (state : TableState) (config : Config) (asks : Bool) : Prop
    extends Restamps py state config where
  asked : stamping py state.configuration = false → stamping py config = true → asks = true

theorem SameStamps.changes {asks : Bool} (h : SameStamps state.configuration config) :
    Changes py state config asks where
  toRestamps := h.restamps
  asked hoff hon := by
    rw [stamping_congr h.1, hoff] at hon
    cases hon

theorem setProperties_changes (h : setProperties py state properties = .ok change) :
    Changes py state (change.configuration state)
      (asksStamping py (.setProperties properties)) := by
  obtain ⟨s, hs, -, rfl⟩ := setProperties_ok h
  obtain hsame | hsame := ifChanged_cases state { state.metadata with
    schema := s.schema.getD state.schema
    configuration := s.configuration }
  · rw [Change.configuration, hsame]
    exact (sameStamps_refl _).changes
  · rw [Change.configuration, hsame]
    apply Changes.mk (Restamps.run (sameStamps_refl _).restamps hs)
    intro hoff hon
    apply asked_of_stamping _ hs hon
    intro hstate
    rw [hoff] at hstate
    cases hstate

theorem not_asks_supported (feature : String) :
    asksStamping py (.setProperties [(featurePrefix ++ feature, .text "supported")]) = false := by
  have hlower : py.lower "supported" = "supported" := py.lower_ascii _ (by decide)
  have hgiven : (RawValue.text "supported").given py = "supported" := rfl
  have hvalue : py.lower (strip py ((RawValue.text "supported").given py)) ≠ "true" := by
    rw [hgiven, strip_supported, hlower]
    decide
  simp only [asksStamping, asked, foldl_cons, foldl_nil]
  split_ifs
  · simpa using hvalue
  · rfl

/-- What an accepted change of any kind does to the properties of in-commit timestamps. -/
theorem act_changes {e : Event} (h : act py state e = .ok change) :
    Changes py state (change.configuration state) (asksStamping py e) := by
  have hmax : cmMax ≠ inCommit ∧ cmMax ≠ enablementVersion ∧ cmMax ≠ enablementTimestamp := by
    decide
  cases e with
  | addColumns newFields uuid =>
    apply SameStamps.changes
    obtain rfl | ⟨added, -, -, -, -, -, ⟨-, hmeta⟩ | ⟨-, highest, -, hmeta⟩⟩ := addColumns_ok h
    · exact sameStamps_refl _
    · rw [Change.configuration, hmeta]
      exact sameStamps_refl _
    · rw [Change.configuration, hmeta]
      exact sameStamps_set hmax
  | mergeSchema data uuid =>
    apply SameStamps.changes
    obtain ⟨m, -, ⟨-, -, rfl⟩ | ⟨-, -, -, ⟨-, hmeta⟩ | ⟨-, highest, -, hmeta⟩⟩⟩ :=
      mergeSchema_ok h
    · exact sameStamps_refl _
    · rw [Change.configuration, hmeta]
      exact sameStamps_refl _
    · rw [Change.configuration, hmeta]
      exact sameStamps_set hmax
  | renameColumn old new =>
    apply SameStamps.changes
    obtain ⟨-, path, found, parts, -, -, -, -, -, ⟨-, rfl⟩ | ⟨-, -, rfl⟩⟩ := renameColumn_ok h
    · exact sameStamps_refl _
    · exact sameStamps_refl _
  | dropColumn column =>
    obtain ⟨-, path, found, -, -, -, -, -, rfl⟩ := dropColumn_ok h
    exact (sameStamps_refl _).changes
  | alterColumnType column new =>
    apply SameStamps.changes
    obtain rfl | ⟨path, found, old, -, -, -, -, rfl⟩ := alterColumnType_ok h
    · exact sameStamps_refl _
    · exact sameStamps_refl _
  | addConstraints constraints =>
    apply SameStamps.changes
    obtain rfl | ⟨added, hadded, rfl⟩ := addConstraints_ok h
    · exact sameStamps_refl _
    · have hkept : ∀ key, startsWith key constraintsPrefix = false →
          (added.foldl (fun config e => config.set e.1 e.2) state.configuration).get key =
            state.configuration.get key :=
        fun key hkey => get_addedConstraints hadded hkey _
      exact ⟨hkept _ (by decide), hkept _ (by decide), hkept _ (by decide)⟩
  | setProperties properties => exact setProperties_changes h
  | addFeature feature =>
    have hchanges := setProperties_changes h
    rw [not_asks_supported] at hchanges
    exact hchanges
  | unsetProperties keys ifExists =>
    obtain ⟨r, hr, ⟨-, rfl⟩ | ⟨-, rfl⟩⟩ := unsetProperties_ok h
    · exact (sameStamps_refl _).changes
    · obtain ⟨hrecord, hget | hget⟩ := unsetKeys_record hr
      · exact SameStamps.changes ⟨hget, hrecord⟩
      · have hoff : stamping py r.1 = false := by
          simp [stamping, hget, lower_false]
        constructor
        · constructor
          · intro _
            exact hrecord
          · intro _ hon
            exact absurd (hoff.symm.trans hon) (by decide)
        · intro _ hon
          exact absurd (hoff.symm.trans hon) (by decide)
  | clusterBy columns =>
    apply SameStamps.changes
    obtain ⟨-, physical, -, rfl | rfl⟩ := clusterBy_ok h
    · exact sameStamps_refl _
    · exact sameStamps_refl _

theorem get_resolve (metadata : TableMetadata) (time : Int) (key : String) :
    (metadata.resolve py time).configuration.get key =
      if key = enablementTimestamp ∧ metadata.configuration.get key = some unresolved then
        some (py.str time)
      else metadata.configuration.get key := by
  unfold TableMetadata.resolve
  by_cases hkey : key = enablementTimestamp
  · subst hkey
    by_cases hmark : metadata.configuration.get enablementTimestamp = some unresolved
    · simp [hmark, Config.get_set]
    · simp [hmark]
  · have hother : ¬ (key = enablementTimestamp ∧
        metadata.configuration.get key = some unresolved) := fun h => hkey h.1
    rw [if_neg hother]
    split_ifs
    · rw [Config.get_set, if_neg hkey]
    · rfl

theorem orNow_eq {before now : Int} (h : before = -1 → 0 ≤ now) :
    orNow (some (max now (before + 1))) now = max now (before + 1) := by
  simp only [orNow]
  split_ifs with hzero
  · omega
  · rfl

section
variable {log : List Logged} {base : Logged} {actions : Actions} {now modified : Int}

theorem buildActions_ok {timestamp : Option Int}
    (h : buildActions py state timestamp change now = .ok actions) :
    actions.metadata = change.metadata.map (fun m => m.resolve py
        (orNow actions.inCommitTimestamp now)) ∧
      actions.inCommitTimestamp = if stamping py (change.configuration state) = true then
        some (max now (timestamp.getD 0 + 1)) else none := by
  unfold buildActions at h
  simp only at h
  split_ifs at h with hmanaged hon
  · cases h
    exact ⟨rfl, (if_pos hon).symm⟩
  · cases h
    exact ⟨rfl, (if_neg hon).symm⟩

theorem get_after (h : buildActions py base.state (some (base.timestamp py)) change now =
    .ok actions) (key : String) :
    (base.after actions modified).state.configuration.get key =
      if key = enablementTimestamp ∧ change.metadata ≠ none ∧
          (change.configuration base.state).get key = some unresolved then
        some (py.str (orNow actions.inCommitTimestamp now))
      else (change.configuration base.state).get key := by
  obtain ⟨hmeta, -⟩ := buildActions_ok h
  rw [TableState.configuration, Logged.after, hmeta, Change.configuration]
  cases change.metadata with
  | none => simp
  | some m => simp [get_resolve]

theorem stamping_after (h : buildActions py base.state (some (base.timestamp py)) change now =
    .ok actions) :
    stamping py (base.after actions modified).state.configuration =
      stamping py (change.configuration base.state) := by
  apply stamping_congr
  rw [get_after h, if_neg]
  intro hkey
  exact absurd hkey.1 (by decide)

/-- A change committed right after the version it was computed against keeps the rules. -/
theorem wellTimed_after (hlast : log.getLast? = some base)
    (hversion : base.state.version + 1 = log.length)
    (hrestamps : Restamps py base.state (change.configuration base.state))
    (hresolved : stamping py base.state.configuration = true →
      base.state.configuration.get enablementTimestamp ≠ some unresolved)
    (hprompt : stamping py base.state.configuration = false →
      stamping py (change.configuration base.state) = true → base.timestamp py = -1 → 0 ≤ now)
    (h : buildActions py base.state (some (base.timestamp py)) change now = .ok actions) :
    WellTimed py log (base.after actions modified) := by
  obtain ⟨-, htime⟩ := buildActions_ok h
  have hon := @stamping_after _ _ _ _ _ modified h
  constructor
  · exact hversion
  · intro hstamping
    rw [hon] at hstamping
    rw [if_pos hstamping] at htime
    apply Exists.intro _
    apply And.intro htime
    intro last hmem
    rw [hlast, Option.mem_some_iff] at hmem
    subst hmem
    rw [Option.getD_some]
    omega
  · intro _ hnil
    rw [hnil] at hlast
    cases hlast
  · intro hstamping last hmem hbase
    rw [hlast, Option.mem_some_iff] at hmem
    subst hmem
    obtain ⟨hversions, htimes⟩ := hrestamps.on hbase
    rw [get_after h, get_after h, if_neg fun hkey => absurd hkey.1 (by decide), if_neg]
    · exact ⟨hversions, htimes⟩
    · intro hmark
      rw [htimes] at hmark
      exact hresolved hbase hmark.2.2
  · intro hstamping last hmem hbase
    rw [hlast, Option.mem_some_iff] at hmem
    subst hmem
    rw [hon] at hstamping
    obtain ⟨hversions, htimes⟩ := hrestamps.off hbase hstamping
    have hchanged : change.metadata ≠ none := by
      intro hnone
      rw [Change.configuration, hnone] at hstamping
      exact absurd (hbase.symm.trans hstamping) (by decide)
    rw [get_after h, get_after h, if_neg fun hkey => absurd hkey.1 (by decide),
      if_pos ⟨rfl, hchanged, htimes⟩, hversions, hversion]
    apply And.intro rfl
    have hcommit : (base.after actions modified).inCommitTimestamp =
        actions.inCommitTimestamp := rfl
    rw [hcommit, htime, if_pos hstamping, Option.getD_some,
      orNow_eq (hprompt hbase hstamping)]
    rfl

end

section
variable {log : List Logged} {c : Logged} {first v : Nat}

/-- A log whose versions are numbered in order and have the timestamps they record. -/
structure Sound (py : Python) (log : List Logged) : Prop where
  versions : ∀ (v : Nat) (c : Logged), log[v]? = some c → c.state.version = v
  stamped : ∀ (v : Nat) (c : Logged), log[v]? = some c → stamping py c.state.configuration = true →
    ∃ first, StampedSince py log first v

theorem getElem?_before {u : Nat} (hu : u < log.length) : (log ++ [c])[u]? = log[u]? :=
  List.getElem?_append_left hu

theorem StampedSince.append (h : StampedSince py log first v) (hv : v < log.length) :
    StampedSince py (log ++ [c]) first v := by
  constructor
  · exact h.le
  · intro u hfirst hu
    obtain ⟨d, t, hd, hon, ht, hbefore⟩ := h.carried u hfirst hu
    exact ⟨d, t, by rw [getElem?_before (by omega), hd], hon, ht, fun before hpos hb =>
      hbefore before hpos (by rwa [getElem?_before (by omega)] at hb)⟩
  · intro d start hd hstart
    rw [getElem?_before hv] at hd
    rw [getElem?_before (by have := h.le; omega)] at hstart
    exact h.recorded d start hd hstart

/-- The timestamps the commits carry increase strictly. -/
def Increasing (log : List Logged) (first v : Nat) : Prop :=
  ∀ u a b s t, first ≤ u → u < v → log[u]? = some a → log[u + 1]? = some b →
    a.inCommitTimestamp = some s → b.inCommitTimestamp = some t → s < t

theorem StampedSince.increasing (h : StampedSince py log first v) : Increasing log first v := by
  intro u a b s t hfirst hu ha hb hs ht
  obtain ⟨c, s', hc, hon, hs', -⟩ := h.carried u hfirst (by omega)
  obtain ⟨d, t', hd, -, ht', hbefore⟩ := h.carried (u + 1) (by omega) (by omega)
  cases ha.symm.trans hc
  cases hb.symm.trans hd
  cases hs.symm.trans hs'
  cases ht.symm.trans ht'
  have hlt := hbefore a (by omega) ha
  rw [Logged.timestamp, if_pos hon, hs, Option.getD_some] at hlt
  exact hlt

theorem getElem?_last : (log ++ [c])[log.length]? = some c := by simp

theorem WellTimed.since (hlog : Sound py log) (h : WellTimed py log c)
    (hon : stamping py c.state.configuration = true) :
    ∃ first, StampedSince py (log ++ [c]) first log.length := by
  obtain ⟨t, ht, hbefore⟩ := h.stamped hon
  have hlatest : ∀ before, 0 < log.length → (log ++ [c])[log.length - 1]? = some before →
      before.timestamp py < t := by
    intro before hpos hget
    rw [getElem?_before (by omega)] at hget
    exact hbefore before (by rw [List.getLast?_eq_getElem?, hget]; rfl)
  cases hlast : log.getLast? with
  | none =>
    have hnil : log = [] := List.getLast?_eq_none_iff.mp hlast
    subst hnil
    apply Exists.intro 0
    constructor
    · exact Nat.le_refl 0
    · intro u _ hu
      obtain rfl : u = 0 := by simpa using hu
      exact ⟨c, t, rfl, hon, ht, fun _ hpos => absurd hpos (by omega)⟩
    · intro d start hd _
      obtain rfl : c = d := by simpa using hd
      exact .inr ⟨rfl, h.fresh hon rfl⟩
  | some last =>
    have hget : log[log.length - 1]? = some last := by
      rw [← List.getLast?_eq_getElem?, hlast]
    have hpos : 0 < log.length := by
      obtain ⟨hlt, -⟩ := List.getElem?_eq_some_iff.mp hget
      omega
    cases hwas : stamping py last.state.configuration with
    | true =>
      obtain ⟨first, hsince⟩ := hlog.stamped _ last hget hwas
      obtain ⟨hversions, htimes⟩ := h.kept hon last hlast hwas
      have hle := hsince.le
      have happended := hsince.append (c := c) (by omega)
      apply Exists.intro first
      constructor
      · omega
      · intro u hfirst hu
        by_cases heq : u = log.length
        · subst heq
          exact ⟨c, t, getElem?_last, hon, ht, hlatest⟩
        · exact happended.carried u hfirst (by omega)
      · intro d start hd hstart
        obtain rfl : c = d := by simpa using hd
        rw [hversions, htimes]
        exact happended.recorded last start (by rw [getElem?_before (by omega), hget]) hstart
    | false =>
      obtain ⟨hversions, htimes⟩ := h.enabled hon last hlast hwas
      apply Exists.intro log.length
      constructor
      · exact Nat.le_refl _
      · intro u hfirst hu
        obtain rfl : u = log.length := by omega
        exact ⟨c, t, getElem?_last, hon, ht, hlatest⟩
      · intro d start hd hstart
        obtain rfl : c = d := by simpa using hd
        obtain rfl : c = start := by simpa using hstart
        exact .inl ⟨hversions, t, ht, by rw [htimes, ht]; rfl⟩

theorem Sound.append (hlog : Sound py log) (h : WellTimed py log c) : Sound py (log ++ [c]) := by
  constructor
  · intro v d hd
    by_cases hv : v < log.length
    · rw [getElem?_before hv] at hd
      exact hlog.versions v d hd
    · obtain ⟨hlt, -⟩ := List.getElem?_eq_some_iff.mp hd
      rw [length_append, length_singleton] at hlt
      obtain rfl : v = log.length := by omega
      obtain rfl : c = d := by simpa using hd
      exact h.version
  · intro v d hd hon
    by_cases hv : v < log.length
    · rw [getElem?_before hv] at hd
      obtain ⟨first, hsince⟩ := hlog.stamped v d hd hon
      exact ⟨first, hsince.append hv⟩
    · obtain ⟨hlt, -⟩ := List.getElem?_eq_some_iff.mp hd
      rw [length_append, length_singleton] at hlt
      obtain rfl : v = log.length := by omega
      obtain rfl : c = d := by simpa using hd
      exact h.since hlog hon

theorem putVersion_sound {read : Nat} (hlog : Sound py log)
    (h : read + 1 = log.length → WellTimed py log c) :
    Sound py (putVersion log (read + 1) c) := by
  unfold putVersion
  split_ifs with hlength
  · exact hlog.append (h hlength)
  · exact hlog

theorem Sound.resolved (hmark : ∀ n, py.str n ≠ unresolved) (hlog : Sound py log)
    (hget : log[v]? = some c) (hon : stamping py c.state.configuration = true) :
    c.state.configuration.get enablementTimestamp ≠ some unresolved := by
  obtain ⟨first, hsince⟩ := hlog.stamped v c hget hon
  obtain ⟨start, -, hstart, -⟩ := hsince.carried first (Nat.le_refl _) hsince.le
  obtain ⟨-, t, -, htime⟩ | ⟨-, -, htime⟩ := hsince.recorded c start hget hstart
  · rw [htime]
    intro heq
    exact hmark t (Option.some.inj heq)
  · rw [htime]
    exact Option.some_ne_none _ ∘ Eq.symm

theorem commitChange_sound {base : Logged} {read : Nat} {now modified : Int}
    (hmark : ∀ n, py.str n ≠ unresolved) (hlog : Sound py log) (hget : log[read]? = some base)
    (hrestamps : Restamps py base.state (change.configuration base.state))
    (hprompt : stamping py base.state.configuration = false →
      stamping py (change.configuration base.state) = true → base.timestamp py = -1 → 0 ≤ now) :
    Sound py (commitChange py log base change read now modified) := by
  unfold commitChange
  cases hbuild : buildActions py base.state (some (base.timestamp py)) change now with
  | error managed => exact hlog
  | ok actions =>
    apply putVersion_sound hlog
    intro hlength
    apply wellTimed_after _ _ hrestamps (hlog.resolved hmark hget) hprompt hbuild
    · rw [List.getLast?_eq_getElem?, ← hlength]
      exact hget
    · rw [hlog.versions read base hget, ← hlength]
      rfl

theorem Move.next_sound {log' : List Logged} {m : Move} (hmark : ∀ n, py.str n ≠ unresolved)
    (hlog : Sound py log) (hlawful : m.Lawful py log) (hprompt : m.Prompt py log)
    (h : m.next py log = some log') : Sound py log' := by
  cases m with
  | attempt e read now modified =>
    obtain ⟨base, hget, h⟩ := Option.bind_eq_some_iff.mp h
    cases hact : act py base.state e with
    | error refused =>
      rw [hact] at h
      cases h
      exact hlog
    | ok change =>
      rw [hact] at h
      simp only at h
      split_ifs at h
      · cases h
        exact hlog
      · cases h
        have hchanges := act_changes hact
        apply commitChange_sound hmark hlog hget hchanges.toRestamps
        intro hoff hon
        exact hprompt base hget (hchanges.asked hoff hon) hoff
  | keeping change read now modified =>
    obtain ⟨base, hget, h⟩ := Option.bind_eq_some_iff.mp h
    cases h
    have hchanges : Changes py base.state (change.configuration base.state) false :=
      (hlawful base hget).changes
    apply commitChange_sound hmark hlog hget hchanges.toRestamps
    intro hoff hon
    exact absurd (hchanges.asked hoff hon) (by decide)
  | other c =>
    cases h
    exact hlog.append hlawful

theorem sound_nil : Sound py [] where
  versions _ _ h := by cases h
  stamped _ _ h := by cases h

/-- Whenever in-commit timestamps are on, every commit since the recorded enablement carries one,
later than the commit before, and the enablement is recorded as it was. -/
theorem timestamps_wellFormed (hmark : ∀ n, py.str n ≠ unresolved)
    (hrun : Run (Move.next py) (fun log m => m.Lawful py log ∧ m.Prompt py log) [] log)
    (hget : log[v]? = some c) (hon : stamping py c.state.configuration = true) :
    ∃ first, StampedSince py log first v ∧ Increasing log first v := by
  have hsound : Sound py log := by
    apply hrun.invariant sound_nil
    intro s t m hs hok hnext
    exact Move.next_sound hmark hs hok.1 hok.2 hnext
  obtain ⟨first, hsince⟩ := hsound.stamped v c hget hon
  exact ⟨first, hsince, hsince.increasing⟩

end

end

def created (modified : Int) : Logged := ⟨plainState, none, modified⟩

def switchOn (read : Nat) (now modified : Int) : Move :=
  .attempt (.setProperties [(inCommit, .bool true)]) read now modified

def switchOff (read : Nat) (now modified : Int) : Move :=
  .attempt (.unsetProperties [inCommit] true) read now modified

theorem ascii_str_ne (n : Int) : ascii.str n ≠ unresolved := by
  intro heq
  have hread := ascii.int_str n
  rw [heq] at hread
  have hnone : ascii.int (.str unresolved) = none := by decide +kernel
  rw [hnone] at hread
  cases hread

theorem created_lawful (modified : Int) : (Move.other (created modified)).Lawful ascii [] := by
  have hoff : ¬ stamping ascii plainState.configuration = true := by decide +kernel
  constructor
  · rfl
  · exact fun hon => absurd hon hoff
  · exact fun hon => absurd hon hoff
  · exact fun hon => absurd hon hoff
  · exact fun hon => absurd hon hoff

/-- Switched on, off and on again by a clock that goes back. -/
theorem timestamps_wellFormed_again : ∃ log c first, log[3]? = some c ∧
    c.inCommitTimestamp = some 21 ∧ StampedSince ascii log first 3 ∧ Increasing log first 3 := by
  have hmoves : ((Move.next ascii [created 10] (switchOn 0 5 7)).any fun on =>
      (Move.next ascii on (switchOff 1 4 20)).any fun off =>
        (Move.next ascii off (switchOn 2 3 30)).any fun again =>
          again[3]?.any fun c => stamping ascii c.state.configuration &&
            decide (c.inCommitTimestamp = some 21)) = true := by
    decide +kernel
  obtain ⟨on, hon, hmoves⟩ := (Option.any_eq_true _ _).mp hmoves
  obtain ⟨off, hoff, hmoves⟩ := (Option.any_eq_true _ _).mp hmoves
  obtain ⟨again, hagain, hmoves⟩ := (Option.any_eq_true _ _).mp hmoves
  obtain ⟨c, hc, hlast⟩ := (Option.any_eq_true _ _).mp hmoves
  rw [Bool.and_eq_true, decide_eq_true_eq] at hlast
  have hprompt : ∀ (log : List Logged) (read : Nat) (now modified : Int), 0 ≤ now →
      (switchOn read now modified).Prompt ascii log :=
    fun _ _ _ _ hnow _ _ _ _ _ => hnow
  have hrun : Run (Move.next ascii) (fun log m => m.Lawful ascii log ∧ m.Prompt ascii log) []
      again := by
    apply Run.step _ ⟨trivial, hprompt off 2 3 30 (by decide)⟩ hagain
    apply Run.step _ ⟨trivial, fun _ _ hasks => by cases hasks⟩ hoff
    apply Run.step _ ⟨trivial, hprompt [created 10] 0 5 7 (by decide)⟩ hon
    exact Run.step .refl ⟨created_lawful 10, trivial⟩ rfl
  obtain ⟨first, hsince⟩ := timestamps_wellFormed ascii_str_ne hrun hc hlast.1
  exact ⟨again, c, first, hc, hlast.2, hsince⟩

/-- A commit of time zero, recorded as of the clock. -/
theorem zero_timestamp_misrecorded :
    ¬ ∀ (py : Python) (log : List Logged) (v : Nat) (c : Logged), (∀ n, py.str n ≠ unresolved) →
      Run (Move.next py) (fun log m => m.Lawful py log) [] log → log[v]? = some c →
        stamping py c.state.configuration = true →
          ∃ first, StampedSince py log first v ∧ Increasing log first v := by
  intro hclaim
  have hmoves : ((Move.next ascii [created (-1)] (switchOn 0 (-5) 7)).any fun on =>
      on[1]?.any fun c => stamping ascii c.state.configuration &&
        decide (c.inCommitTimestamp = some 0) &&
        decide (on[0]? = some (created (-1))) &&
        decide (c.state.configuration.get enablementVersion = some "1") &&
        decide (c.state.configuration.get enablementTimestamp = some "-5")) = true := by
    decide +kernel
  obtain ⟨on, hon, hmoves⟩ := (Option.any_eq_true _ _).mp hmoves
  obtain ⟨c, hc, hlast⟩ := (Option.any_eq_true _ _).mp hmoves
  simp only [Bool.and_eq_true, decide_eq_true_eq] at hlast
  obtain ⟨⟨⟨⟨hstamping, hzero⟩, hfirst⟩, hversion⟩, htime⟩ := hlast
  have hrun : Run (Move.next ascii) (fun log m => m.Lawful ascii log) [] on := by
    apply Run.step _ _ hon
    · exact Run.step .refl (created_lawful (-1)) rfl
    · trivial
  obtain ⟨first, hsince, -⟩ := hclaim ascii on 1 c ascii_str_ne hrun hc hstamping
  obtain rfl | rfl : first = 0 ∨ first = 1 := by
    have := hsince.le
    omega
  · obtain ⟨hrecorded, -⟩ | ⟨-, hrecorded, -⟩ := hsince.recorded c _ hc hfirst
    · rw [hversion] at hrecorded
      exact absurd hrecorded (by decide +kernel)
    · rw [hversion] at hrecorded
      cases hrecorded
  · obtain ⟨-, t, ht, hrecorded⟩ | ⟨hnever, -⟩ := hsince.recorded c c hc hc
    · rw [hzero] at ht
      cases ht
      rw [htime] at hrecorded
      exact absurd hrecorded (by decide +kernel)
    · cases hnever

end DeltaSwamp.Metadata
