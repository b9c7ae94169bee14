import DeltaSwamp.Checksum.Counts

/-!
# Checksums carried over a commit

What carrying copies of a commit's actions is what replaying them leaves, so a
checksum carried from a true one is true.
-/

namespace DeltaSwamp.Checksum

open List

section
variable {κ : Type} [DecidableEq κ] {key : Json → κ} {st : State κ}

variable {name : String}

theorem Lists.upsert {items : List Json} {entries : Option Json → Option Json}
    (h : Lists items name entries) (entry : Json) (removed : Bool) :
    Lists (if removed then items.filter fun item => item.get name ≠ entry.get name
      else (items.filter fun item => item.get name ≠ entry.get name) ++ [entry]) name
      (Function.update entries (entry.get name) (if removed then none else some entry)) := by
  have hkept : ∀ item, item ∈ items.filter (fun item => item.get name ≠ entry.get name) ↔
      item.get name ≠ entry.get name ∧ entries (item.get name) = some item := by
    intro item
    rw [mem_filter, h.mem_iff]
    simp [and_comm]
  have hnodup : ((items.filter fun item => item.get name ≠ entry.get name).map
      fun item => item.get name).Nodup := h.nodup.sublist (filter_sublist.map _)
  cases removed with
  | true =>
    refine ⟨fun item => ?_, hnodup⟩
    simp only [if_true, hkept]
    by_cases hid : item.get name = entry.get name
    · simp [hid]
    · simp [hid]
  | false =>
    refine ⟨fun item => ?_, ?_⟩
    · simp only [Bool.false_eq_true, if_false, mem_append, hkept, mem_singleton]
      by_cases hid : item.get name = entry.get name
      · simp [hid, eq_comm]
      · have hne : item ≠ entry := fun heq => hid (heq ▸ rfl)
        simp [hid, hne]
    · simp only [Bool.false_eq_true, if_false, map_append, map_cons, map_nil]
      refine nodup_append.mpr ⟨hnodup, nodup_singleton _, ?_⟩
      rintro id hmem _ hentry rfl
      obtain ⟨item, hitem, rfl⟩ := mem_map.mp hmem
      exact ((hkept item).mp hitem).1 (mem_singleton.mp hentry)

variable {crc : Fields}

theorem upsert_lookup_ne {list other : String} {entry : Json} {removed : Bool} (h : other ≠ list) :
    (upsert crc list name entry removed).lookup other = crc.lookup other := by
  unfold upsert
  split
  · rw [Fields.lookup_insert, if_neg h]
  · rfl

theorem upsert_lists {list : String} {entry : Json} {removed : Bool}
    {entries : Option Json → Option Json}
    (h : ∀ items, crc.lookup list = some (.arr items) → Lists items name entries)
    {items : List Json}
    (hitems : (upsert crc list name entry removed).lookup list = some (.arr items)) :
    Lists items name
      (Function.update entries (entry.get name) (if removed then none else some entry)) := by
  unfold upsert at hitems
  split at hitems
  · rename_i old hold
    rw [Fields.lookup_insert, if_pos rfl] at hitems
    cases hitems
    exact (h old hold).upsert entry removed
  · rename_i hnot
    exact absurd hitems (hnot items)

/-- The keys of a checksum that carrying an action may write. -/
def carriedKeys : List String := ["metadata", "protocol", "domainMetadata", "setTransactions"]

variable {ict : Option Json}

theorem carryAction_other {kind : String} {value : Json}
    (h : kind ∉ ["add", "remove", "metaData", "protocol", "domainMetadata", "txn",
      "commitInfo"]) : carryAction (crc, ict) [(kind, value)] = (crc, ict) := by
  simp only [mem_cons, not_mem_nil, or_false, not_or] at h
  obtain ⟨_, _, h3, h4, h5, h6, h7⟩ := h
  have hlookup : ∀ name, name ≠ kind → List.lookup name [(kind, value)] = none := by
    intro name hne
    simp [lookup_cons, beq_false_of_ne hne]
  simp only [carryAction, hlookup _ (Ne.symm h3), hlookup _ (Ne.symm h4), hlookup _ (Ne.symm h5),
    hlookup _ (Ne.symm h6), hlookup _ (Ne.symm h7)]

/-- One action carried over keeps what the checksum says of the actions true. -/
theorem carryAction_true (h : ActionsTrue crc st) (hict : ict = st.inCommitTimestamp)
    (action : Action) :
    ActionsTrue (carryAction (crc, ict) action.fields).1 (st.apply key action) ∧
      (carryAction (crc, ict) action.fields).2 = (st.apply key action).inCommitTimestamp ∧
      ∀ name ∉ carriedKeys,
        (carryAction (crc, ict) action.fields).1.lookup name = crc.lookup name := by
  obtain ⟨hmetadata, hprotocol, hdomains, htxns⟩ := h
  subst hict
  cases action with
  | add file => exact ⟨⟨hmetadata, hprotocol, hdomains, htxns⟩, rfl, fun _ _ => rfl⟩
  | remove file => exact ⟨⟨hmetadata, hprotocol, hdomains, htxns⟩, rfl, fun _ _ => rfl⟩
  | commitInfo value => exact ⟨⟨hmetadata, hprotocol, hdomains, htxns⟩, rfl, fun _ _ => rfl⟩
  | metaData value =>
    change ActionsTrue (crc.insert "metadata" value) _ ∧ _ ∧
      ∀ name ∉ carriedKeys, (crc.insert "metadata" value).lookup name = _
    refine ⟨⟨?_, ?_, ?_, ?_⟩, rfl, ?_⟩
    · simp [Fields.lookup_insert, State.apply]
    · simpa [Fields.lookup_insert, State.apply] using hprotocol
    · simpa [Fields.lookup_insert, State.apply] using hdomains
    · simpa [Fields.lookup_insert, State.apply] using htxns
    · intro name hname
      rw [Fields.lookup_insert, if_neg]
      rintro rfl
      simp [carriedKeys] at hname
  | protocol value =>
    change ActionsTrue (crc.insert "protocol" value) _ ∧ _ ∧
      ∀ name ∉ carriedKeys, (crc.insert "protocol" value).lookup name = _
    refine ⟨⟨?_, ?_, ?_, ?_⟩, rfl, ?_⟩
    · simpa [Fields.lookup_insert, State.apply] using hmetadata
    · simp [Fields.lookup_insert, State.apply]
    · simpa [Fields.lookup_insert, State.apply] using hdomains
    · simpa [Fields.lookup_insert, State.apply] using htxns
    · intro name hname
      rw [Fields.lookup_insert, if_neg]
      rintro rfl
      simp [carriedKeys] at hname
  | domainMetadata value =>
    change ActionsTrue (upsert crc "domainMetadata" "domain" value (isRemoved value)) _ ∧ _ ∧
      ∀ name ∉ carriedKeys, (upsert crc "domainMetadata" "domain" value _).lookup name = _
    refine ⟨⟨?_, ?_, ?_, ?_⟩, rfl, ?_⟩
    · rwa [upsert_lookup_ne (by decide)]
    · rwa [upsert_lookup_ne (by decide)]
    · exact fun items hitems => upsert_lists hdomains hitems
    · rwa [upsert_lookup_ne (by decide)]
    · intro name hname
      refine upsert_lookup_ne ?_
      rintro rfl
      simp [carriedKeys] at hname
  | txn value =>
    change ActionsTrue (upsert crc "setTransactions" "appId" value false) _ ∧ _ ∧
      ∀ name ∉ carriedKeys, (upsert crc "setTransactions" "appId" value false).lookup name = _
    refine ⟨⟨?_, ?_, ?_, ?_⟩, rfl, ?_⟩
    · rwa [upsert_lookup_ne (by decide)]
    · rwa [upsert_lookup_ne (by decide)]
    · rwa [upsert_lookup_ne (by decide)]
    · exact fun items hitems => upsert_lists htxns hitems
    · intro name hname
      refine upsert_lookup_ne ?_
      rintro rfl
      simp [carriedKeys] at hname
  | other kind value unknown =>
    rw [Action.fields, carryAction_other unknown]
    exact ⟨⟨hmetadata, hprotocol, hdomains, htxns⟩, rfl, fun _ _ => rfl⟩

theorem carryActions_true (h : ActionsTrue crc st) (hict : ict = st.inCommitTimestamp)
    (actions : List Action) :
    let carried := (actions.map Action.fields).foldl carryAction (crc, ict)
    ActionsTrue carried.1 (actions.foldl (State.apply key) st) ∧
      carried.2 = (actions.foldl (State.apply key) st).inCommitTimestamp ∧
      ∀ name ∉ carriedKeys, carried.1.lookup name = crc.lookup name := by
  induction actions generalizing crc ict st with
  | nil => exact ⟨h, hict, fun _ _ => rfl⟩
  | cons action rest ih =>
    obtain ⟨htrue, htime, hkeys⟩ := carryAction_true h hict action
    obtain ⟨hrest, hresttime, hrestkeys⟩ := ih htrue htime
    exact ⟨hrest, hresttime, fun name hname => (hrestkeys name hname).trans (hkeys name hname)⟩

theorem readActions_lines (actions : List Action) :
    readActions (lines actions) = some (actions.map Action.fields) := by
  induction actions with
  | nil => rfl
  | cons action rest ih =>
    simp only [readActions, lines, map_cons, mapM_cons] at ih ⊢
    rw [ih]
    rfl

variable {crc' : Fields}

theorem stamp_eq_some (h : stamp crc ict = some crc') :
    crc'.lookup "inCommitTimestampOpt" = ict ∧
      ∀ name ≠ "inCommitTimestampOpt", crc'.lookup name = crc.lookup name := by
  unfold stamp at h
  split at h
  · cases h
    refine ⟨by rw [Fields.lookup_insert, if_pos rfl], fun name hname => ?_⟩
    rw [Fields.lookup_insert, if_neg hname]
  · split_ifs at h
    cases h
    refine ⟨by rw [Fields.lookup_remove, if_pos rfl], fun name hname => ?_⟩
    rw [Fields.lookup_remove, if_neg hname]

omit [DecidableEq κ] in
theorem FilesTrue.congr {st' : State κ} (h : FilesTrue crc st)
    (hsum : ∀ g, st'.sumOf g = st.sumOf g)
    (hkeys : ∀ name ∈ ["numFiles", "tableSizeBytes", "fileSizeHistogram"],
      crc'.lookup name = crc.lookup name) : FilesTrue crc' st' := by
  refine ⟨?_, ?_, fun hist hread => ?_⟩
  · rw [hkeys _ (by simp), h.numFiles, State.numFiles, State.numFiles, hsum]
  · rw [hkeys _ (by simp), h.tableSizeBytes, State.tableSize, State.tableSize, hsum]
  · rw [readHistogram_congr (hkeys _ (by simp))] at hread
    obtain ⟨hsorted, hcounts, hsizes⟩ := h.histogram hist hread
    refine ⟨hsorted, fun i => ?_, fun i => ?_⟩
    · rw [hcounts, State.binCount, State.binCount, hsum]
    · rw [hsizes, State.binBytes, State.binBytes, hsum]

omit [DecidableEq κ] in
theorem ActionsTrue.congr (h : ActionsTrue crc st)
    (hkeys : ∀ name ∈ carriedKeys, crc'.lookup name = crc.lookup name) : ActionsTrue crc' st := by
  refine ⟨?_, ?_, fun items hitems => ?_, fun items hitems => ?_⟩
  · rw [hkeys _ (by simp [carriedKeys]), h.metadata]
  · rw [hkeys _ (by simp [carriedKeys]), h.protocol]
  · rw [hkeys _ (by simp [carriedKeys])] at hitems
    exact h.domainMetadata items hitems
  · rw [hkeys _ (by simp [carriedKeys])] at hitems
    exact h.setTransactions items hitems

variable {actions : List Action}

theorem sumOf_unchanged (h : filesChanged (actions.map Action.fields) = false) (g : Nat → Int) :
    (actions.foldl (State.apply key) st).sumOf g = st.sumOf g := by
  induction actions generalizing st with
  | nil => rfl
  | cons action rest ih =>
    simp only [filesChanged, map_cons, any_cons, Bool.or_eq_false_iff,
      Option.isSome_eq_false_iff, Option.isNone_iff_eq_none] at h ih
    obtain ⟨⟨hadd, hremove⟩, hrest⟩ := h
    have hfile : fileOf action.fields = none := by rw [fileOf, hadd, hremove]
    rw [foldl_cons, ih hrest, sumOf_uncounted hfile]

theorem countFiles_lookup {actions : List Fields} (h : countFiles crc actions = some crc')
    (hname : name ∈ carriedKeys) : crc'.lookup name = crc.lookup name := by
  unfold countFiles at h
  split_ifs at h
  obtain ⟨_, _, h⟩ := Option.bind_eq_some_iff.mp h
  obtain ⟨_, _, h⟩ := Option.bind_eq_some_iff.mp h
  obtain ⟨_, _, h⟩ := Option.bind_eq_some_iff.mp h
  obtain ⟨_, _, h⟩ := Option.bind_eq_some_iff.mp h
  obtain ⟨_, _, h⟩ := Option.bind_eq_some_iff.mp h
  obtain ⟨c, _, h⟩ := Option.bind_eq_some_iff.mp h
  split_ifs at h
  cases h
  refine store_lookup c crc _ name ?_
  revert hname
  simp only [carriedKeys]
  decide +revert

theorem files_true {counted : Fields} (h : FilesTrue crc st)
    (hafter : filesChanged (actions.map Action.fields) = true →
      (actions.foldl (State.apply key) st).Small (2 ^ 63)) (hfits : AllFit key st actions)
    (hcount : (if filesChanged (actions.map Action.fields) then
      countFiles crc (actions.map Action.fields) else some crc) = some counted) :
    FilesTrue counted (actions.foldl (State.apply key) st) ∧
      ∀ name ∈ carriedKeys, counted.lookup name = crc.lookup name := by
  split_ifs at hcount with hchanged
  · exact ⟨filesTrue_countFiles h (hafter hchanged) hfits hcount,
      fun name hname => countFiles_lookup hcount hname⟩
  · cases hcount
    exact ⟨h.congr (sumOf_unchanged (by simpa using hchanged)) fun _ _ => rfl, fun _ _ => rfl⟩

theorem carryForward_eq_some {crc' : Json} {version : Version}
    (h : carryForward (version + 1) (some (.obj crc)) (some (lines actions)) = some crc') :
    ∃ counted carried ict fields, (if filesChanged (actions.map Action.fields) then
        countFiles crc (actions.map Action.fields) else some crc) = some counted ∧
      (actions.map Action.fields).foldl carryAction (counted.remove "txnId", none) =
        (carried, ict) ∧ stamp carried ict = some fields ∧ crc' = .obj fields := by
  simp only [carryForward, readActions_lines, Option.bind_eq_bind, Option.bind_some] at h
  split_ifs at h ⊢ with hchanged
  · obtain ⟨counted, hcounted, h⟩ := Option.bind_eq_some_iff.mp h
    obtain ⟨fields, hstamp, h⟩ := Option.bind_eq_some_iff.mp h
    exact ⟨counted, _, _, fields, hcounted, rfl, hstamp, (Option.some.inj h).symm⟩
  · obtain ⟨fields, hstamp, h⟩ := Option.bind_eq_some_iff.mp h
    exact ⟨crc, _, _, fields, rfl, rfl, hstamp, (Option.some.inj h).symm⟩

theorem carryForward_true {crc' : Json} {version : Version} (h : TrueOf crc st)
    (hafter : filesChanged (actions.map Action.fields) = true →
      (st.commit key actions).Small (2 ^ 63)) (hfits : AllFit key st.begin actions)
    (hcarry : carryForward (version + 1) (some (.obj crc)) (some (lines actions)) = some crc') :
    ∃ fields, crc' = .obj fields ∧ TrueOf fields (st.commit key actions) := by
  obtain ⟨counted, carried, ict, fields, hcounted, hcarried, hstamp, rfl⟩ :=
    carryForward_eq_some hcarry
  have hbefore : FilesTrue crc st.begin := h.toFilesTrue.congr (fun _ => rfl) fun _ _ => rfl
  obtain ⟨hfiles, hkept⟩ := files_true hbefore hafter hfits hcounted
  have hstart : ActionsTrue (counted.remove "txnId") st.begin := by
    have hbegin : ActionsTrue crc st.begin :=
      ⟨h.metadata, h.protocol, h.domainMetadata, h.setTransactions⟩
    refine hbegin.congr fun name hname => ?_
    rw [Fields.lookup_remove, if_neg, hkept name hname]
    rintro rfl
    simp [carriedKeys] at hname
  obtain ⟨hactions, htime, huntouched⟩ := carryActions_true hstart (show none = _ from rfl) actions
  rw [hcarried] at hactions htime huntouched
  obtain ⟨hict, hsame⟩ := stamp_eq_some hstamp
  have hstats : ∀ name ∈ ["numFiles", "tableSizeBytes", "fileSizeHistogram"],
      fields.lookup name = counted.lookup name := by
    intro name hname
    have hname' : name ≠ "inCommitTimestampOpt" ∧ name ∉ carriedKeys ∧ name ≠ "txnId" := by
      simp only [mem_cons, not_mem_nil, or_false] at hname
      rcases hname with rfl | rfl | rfl <;> decide
    rw [hsame name hname'.1, huntouched name hname'.2.1, Fields.lookup_remove, if_neg hname'.2.2]
  have hlists : ∀ name ∈ carriedKeys, name ≠ "inCommitTimestampOpt" := by decide
  exact ⟨fields, rfl, ⟨hfiles.congr (fun _ => rfl) hstats,
    hactions.congr fun name hname => hsame name (hlists name hname), hict.trans htime⟩⟩

end

end DeltaSwamp.Checksum
