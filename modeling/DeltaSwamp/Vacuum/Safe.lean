import DeltaSwamp.Vacuum.Plan

/-!
# A VACUUM spares what is referenced and misses nothing else

The files a plan names are exactly those of the listing (or of expired
removes) that no live file, unexpired remove or recent change data keeps.
-/

namespace DeltaSwamp.Vacuum

open List

open Commit (NativeError)
open Result

section
variable (t : Table)

/-- A URL whose file must stay: of a live file, of a remove since the cutoff, of
either's vector, or of change data in a commit of the log segment since then. -/
inductive Protects (cutoff : Int) : Url → Prop where
  | live {files file url} : t.live = .ok files → file ∈ files → resolve t file.path = .ok url →
      Protects cutoff url
  | liveVector {files file json url} : t.live = .ok files → file ∈ files →
      file.deletionVector = some json → vectorUrlJson t json = .ok (some url) →
      Protects cutoff url
  | remove {rows row path url} : t.removes = .ok rows → row ∈ rows → row.path = some path →
      cutoff ≤ row.deletionTimestamp.getD 0 → resolve t path = .ok url → Protects cutoff url
  | removeVector {rows row path url} : t.removes = .ok rows → row ∈ rows →
      row.path = some path → cutoff ≤ row.deletionTimestamp.getD 0 →
      vectorUrlRow t row.deletionVector = .ok (some url) → Protects cutoff url
  | changeData {c lines line path url} : c ∈ segmentCommits t → cutoff ≤ c.lastModified →
      c.lines = .ok lines → line ∈ lines → mentionsCdc line = true →
      t.lib.cdcPath line = some path → resolve t path = .ok url → Protects cutoff url

/-- The file or the vector of a remove before the cutoff. -/
inductive Expired (cutoff : Int) : Url → Prop where
  | file {rows row path url} : t.removes = .ok rows → row ∈ rows → row.path = some path →
      row.deletionTimestamp.getD 0 < cutoff → resolve t path = .ok url → Expired cutoff url
  | vector {rows row path url} : t.removes = .ok rows → row ∈ rows → row.path = some path →
      row.deletionTimestamp.getD 0 < cutoff →
      vectorUrlRow t row.deletionVector = .ok (some url) → Expired cutoff url

/-- `key` is the key of the file at `url`, in the store's encoding or decoded,
up to another percent-decoding of the key and letter case. -/
def Names (rootPath : List Text) (url : Url) (key : Text) : Prop :=
  isUnder t.root url = true ∧ ∃ spelled,
    (storeKey t rootPath url = some spelled ∨ decodedKey t url = some spelled) ∧
    (lower t key = lower t spelled ∨ lower t (t.lib.decode key) = lower t spelled)

variable {t} {cutoff : Int} {rootPath : List Text}

variable {url : Url} {key : Text}

theorem mem_spellings :
    key ∈ spellings t rootPath url ↔ isUnder t.root url = true ∧ ∃ spelled,
      (storeKey t rootPath url = some spelled ∨ decodedKey t url = some spelled) ∧
        key = lower t spelled := by
  unfold spellings
  split_ifs with hunder
  · simp only [mem_map, reduceOption_mem_iff, mem_cons, not_mem_nil, or_false,
      hunder, true_and]
    constructor
    · rintro ⟨spelled, hspelled, rfl⟩
      exact ⟨spelled, hspelled.imp Eq.symm Eq.symm, rfl⟩
    · rintro ⟨spelled, hspelled, rfl⟩
      exact ⟨spelled, hspelled.imp Eq.symm Eq.symm, rfl⟩
  · simp [hunder]

variable {urls : List Url}

theorem contains_iff :
    contains t (urls.flatMap (spellings t rootPath)) key = true ↔
      ∃ url ∈ urls, Names t rootPath url key := by
  simp only [contains, Bool.or_eq_true, contains_iff_mem, mem_flatMap, mem_spellings,
    Names]
  constructor
  · rintro (⟨url, hurl, hunder, spelled, hspelled, heq⟩ |
      ⟨url, hurl, hunder, spelled, hspelled, heq⟩)
    · exact ⟨url, hurl, hunder, spelled, hspelled, .inl heq⟩
    · exact ⟨url, hurl, hunder, spelled, hspelled, .inr heq⟩
  · rintro ⟨url, hurl, hunder, spelled, hspelled, heq | heq⟩
    · exact .inl ⟨url, hurl, hunder, spelled, hspelled, heq⟩
    · exact .inr ⟨url, hurl, hunder, spelled, hspelled, heq⟩

theorem mem_liveUrls {file : LiveFile} (h : liveUrls t file = .ok urls) :
    url ∈ urls ↔ resolve t file.path = .ok url ∨
      ∃ json, file.deletionVector = some json ∧ vectorUrlJson t json = .ok (some url) := by
  obtain ⟨own, hown, h⟩ := bind_eq_ok_iff.mp h
  cases hdv : file.deletionVector with
  | none =>
    simp only [hdv, pure_eq_ok_iff] at h
    simp [← h, hown, eq_comm]
  | some json =>
    simp only [hdv] at h
    obtain ⟨vector, hvector, h⟩ := bind_eq_ok_iff.mp h
    rw [pure_eq_ok_iff] at h
    subst h
    simp only [mem_cons, Option.mem_toList, hown, Except.ok.injEq, Option.some.injEq,
      exists_eq_left', hvector]
    exact or_congr eq_comm Iff.rfl

theorem tombstone_eq_some {row : RemoveRow} {s : Tombstone} :
    tombstone t row = .ok (some s) ↔
      ∃ path, row.path = some path ∧ resolve t path = .ok s.file ∧
        vectorUrlRow t row.deletionVector = .ok s.vector ∧
        s.deletedMs = row.deletionTimestamp.getD 0 := by
  unfold tombstone
  cases hpath : row.path with
  | none => simp
  | some path =>
    simp only [bind_eq_ok_iff, pure_eq_ok_iff, Option.some.injEq, exists_eq_left']
    constructor
    · rintro ⟨file, hfile, vector, hvector, rfl⟩
      exact ⟨hfile, hvector, rfl⟩
    · rintro ⟨hfile, hvector, hdeleted⟩
      exact ⟨s.file, hfile, s.vector, hvector, by rw [← hdeleted]⟩

variable {rows : List RemoveRow} {found : List Tombstone}

theorem mem_tombstones (hrows : t.removes = .ok rows) (h : tombstones t = .ok found)
    {s : Tombstone} :
    s ∈ found ↔ ∃ row ∈ rows, tombstone t row = .ok (some s) := by
  obtain ⟨rows', hrows', h⟩ := bind_eq_ok_iff.mp h
  obtain rfl : rows = rows' := Except.ok.inj (hrows.symm.trans hrows')
  obtain ⟨ss, hss, h⟩ := bind_eq_ok_iff.mp h
  rw [pure_eq_ok_iff] at h
  rw [← h, reduceOption_mem_iff, mem_of_mapM_ok hss]

theorem exists_tombstone (hrows : t.removes = .ok rows) (h : tombstones t = .ok found)
    {row : RemoveRow} {path : Text} (hrow : row ∈ rows) (hpath : row.path = some path) :
    ∃ s ∈ found, tombstone t row = .ok (some s) := by
  have hmem := @mem_tombstones t rows found hrows h
  obtain ⟨rows', hrows', h⟩ := bind_eq_ok_iff.mp h
  obtain rfl : rows = rows' := Except.ok.inj (hrows.symm.trans hrows')
  obtain ⟨ss, hss, -⟩ := bind_eq_ok_iff.mp h
  obtain ⟨o, ho⟩ := exists_ok_of_mapM_ok hss row hrow
  cases o with
  | none =>
    simp only [tombstone, hpath] at ho
    obtain ⟨_, _, ho⟩ := bind_eq_ok_iff.mp ho
    obtain ⟨_, _, ho⟩ := bind_eq_ok_iff.mp ho
    rw [pure_eq_ok_iff] at ho
    cases ho
  | some s => exact ⟨s, hmem.mpr ⟨row, hrow, ho⟩, ho⟩

theorem mem_recentChangeData (h : recentChangeData t cutoff = .ok urls) :
    url ∈ urls ↔ ∃ c ∈ segmentCommits t, cutoff ≤ c.lastModified ∧ ∃ lines, c.lines = .ok lines ∧
      ∃ line ∈ lines, mentionsCdc line = true ∧ ∃ path, t.lib.cdcPath line = some path ∧
        resolve t path = .ok url := by
  obtain ⟨lines, hlines, h⟩ := bind_eq_ok_iff.mp h
  simp only [mem_of_mapM_ok h, mem_filterMap, mem_filter, mem_flatten,
    mem_of_mapM_ok hlines, decide_eq_true_eq]
  constructor
  · rintro ⟨path, ⟨line, ⟨⟨ls, ⟨c, ⟨hc, hold⟩, hls⟩, hline⟩, hmentions⟩, hpath⟩, hurl⟩
    exact ⟨c, hc, hold, ls, hls, line, hline, hmentions, path, hpath, hurl⟩
  · rintro ⟨c, hc, hold, ls, hls, line, hline, hmentions, path, hpath, hurl⟩
    exact ⟨path, ⟨line, ⟨⟨ls, ⟨c, ⟨hc, hold⟩, hls⟩, hline⟩, hmentions⟩, hpath⟩, hurl⟩

theorem mem_tombstoneUrls (hrows : t.removes = .ok rows) (h : tombstones t = .ok found)
    (passes : Int → Bool) :
    url ∈ (found.filter fun s => passes s.deletedMs).flatMap Tombstone.urls ↔
      ∃ row ∈ rows, ∃ path, row.path = some path ∧
        passes (row.deletionTimestamp.getD 0) = true ∧
        (resolve t path = .ok url ∨ vectorUrlRow t row.deletionVector = .ok (some url)) := by
  simp only [mem_flatMap, mem_filter, Tombstone.urls, mem_cons, Option.mem_toList,
    mem_tombstones hrows h]
  constructor
  · rintro ⟨s, ⟨⟨row, hrow, hs⟩, hpasses⟩, hurl⟩
    obtain ⟨path, hpath, hfile, hvector, hdeleted⟩ := tombstone_eq_some.mp hs
    refine ⟨row, hrow, path, hpath, hdeleted ▸ hpasses, ?_⟩
    rcases hurl with rfl | hurl
    · exact .inl hfile
    · exact .inr (hurl ▸ hvector)
  · rintro ⟨row, hrow, path, hpath, hpasses, hurl⟩
    obtain ⟨s, -, hs⟩ := exists_tombstone hrows h hrow hpath
    obtain ⟨path', hpath', hfile, hvector, hdeleted⟩ := tombstone_eq_some.mp hs
    obtain rfl : path = path' := Option.some.inj (hpath.symm.trans hpath')
    refine ⟨s, ⟨⟨row, hrow, hs⟩, hdeleted ▸ hpasses⟩, ?_⟩
    rcases hurl with hurl | hurl
    · exact .inl (Except.ok.inj (hurl.symm.trans hfile))
    · exact .inr (Except.ok.inj (hvector.symm.trans hurl))

theorem mem_live {files : List LiveFile} {live : List (List Url)}
    (h : files.mapM (liveUrls t) = .ok live) :
    url ∈ live.flatten ↔ ∃ file ∈ files, resolve t file.path = .ok url ∨
      ∃ json, file.deletionVector = some json ∧ vectorUrlJson t json = .ok (some url) := by
  simp only [mem_flatten, mem_of_mapM_ok h]
  constructor
  · rintro ⟨urls, ⟨file, hfile, hurls⟩, hurl⟩
    exact ⟨file, hfile, (mem_liveUrls hurls).mp hurl⟩
  · rintro ⟨file, hfile, hurl⟩
    obtain ⟨urls, hurls⟩ := exists_ok_of_mapM_ok h file hfile
    exact ⟨urls, ⟨file, hfile, hurls⟩, (mem_liveUrls hurls).mpr hurl⟩

variable {expired : List Tombstone}

/-- The URLs of a plan's references are the protected ones, and those of the
removes it calls expired are. -/
theorem mem_references (h : references t cutoff = .ok (urls, expired)) :
    (url ∈ urls ↔ Protects t cutoff url) ∧
      (url ∈ expired.flatMap Tombstone.urls ↔ Expired t cutoff url) := by
  obtain ⟨files, hfiles, h⟩ := bind_eq_ok_iff.mp h
  obtain ⟨live, hlive, h⟩ := bind_eq_ok_iff.mp h
  obtain ⟨found, hfound, h⟩ := bind_eq_ok_iff.mp h
  obtain ⟨changed, hchanged, h⟩ := bind_eq_ok_iff.mp h
  obtain ⟨rows, hrows, -⟩ := bind_eq_ok_iff.mp hfound
  simp only [partition_eq_filter_filter, pure_eq_ok_iff, Prod.mk.injEq] at h
  obtain ⟨rfl, rfl⟩ := h
  have hkept := @mem_tombstoneUrls t url rows found hrows hfound (fun ts => decide (cutoff ≤ ts))
  have hold := @mem_tombstoneUrls t url rows found hrows hfound (fun ts => !decide (cutoff ≤ ts))
  constructor
  · rw [mem_append, mem_append, mem_live hlive, hkept, mem_recentChangeData hchanged]
    constructor
    · rintro ((⟨file, hfile, hurl | ⟨json, hjson, hurl⟩⟩ | ⟨row, hrow, path, hpath, hts, hurl⟩) |
        ⟨c, hc, hts, lines, hlines, line, hline, hmentions, path, hpath, hurl⟩)
      · exact .live hfiles hfile hurl
      · exact .liveVector hfiles hfile hjson hurl
      · have hts : cutoff ≤ row.deletionTimestamp.getD 0 := by simpa using hts
        rcases hurl with hurl | hurl
        · exact .remove hrows hrow hpath hts hurl
        · exact .removeVector hrows hrow hpath hts hurl
      · exact .changeData hc hts hlines hline hmentions hpath hurl
    · intro hprotects
      cases hprotects with
      | live hfiles' hfile hurl =>
        obtain rfl := Except.ok.inj (hfiles.symm.trans hfiles')
        exact .inl (.inl ⟨_, hfile, .inl hurl⟩)
      | liveVector hfiles' hfile hjson hurl =>
        obtain rfl := Except.ok.inj (hfiles.symm.trans hfiles')
        exact .inl (.inl ⟨_, hfile, .inr ⟨_, hjson, hurl⟩⟩)
      | remove hrows' hrow hpath hts hurl =>
        obtain rfl := Except.ok.inj (hrows.symm.trans hrows')
        exact .inl (.inr ⟨_, hrow, _, hpath, by simpa using hts, .inl hurl⟩)
      | removeVector hrows' hrow hpath hts hurl =>
        obtain rfl := Except.ok.inj (hrows.symm.trans hrows')
        exact .inl (.inr ⟨_, hrow, _, hpath, by simpa using hts, .inr hurl⟩)
      | changeData hc hts hlines hline hmentions hpath hurl =>
        exact .inr ⟨_, hc, hts, _, hlines, _, hline, hmentions, _, hpath, hurl⟩
  · have hfilter : (found.filter (not ∘ fun s => decide (cutoff ≤ s.deletedMs))) =
        found.filter fun s => !decide (cutoff ≤ s.deletedMs) := rfl
    rw [hfilter, hold]
    constructor
    · rintro ⟨row, hrow, path, hpath, hts, hurl⟩
      have hts : row.deletionTimestamp.getD 0 < cutoff := by simpa using hts
      rcases hurl with hurl | hurl
      · exact .file hrows hrow hpath hts hurl
      · exact .vector hrows hrow hpath hts hurl
    · intro hexpired
      cases hexpired with
      | file hrows' hrow hpath hts hurl =>
        obtain rfl := Except.ok.inj (hrows.symm.trans hrows')
        exact ⟨_, hrow, _, hpath, by simpa using hts, .inl hurl⟩
      | vector hrows' hrow hpath hts hurl =>
        obtain rfl := Except.ok.inj (hrows.symm.trans hrows')
        exact ⟨_, hrow, _, hpath, by simpa using hts, .inr hurl⟩

theorem mem_unseen {seen keys : List Text} : key ∈ unseen seen keys ↔ key ∈ keys ∧ key ∉ seen := by
  induction keys generalizing seen with
  | nil => simp [unseen]
  | cons k keys ih =>
    rw [unseen]
    split_ifs with hk
    · rw [ih, mem_cons]
      have hk : k ∈ seen := by simpa using hk
      constructor
      · rintro ⟨hkey, hseen⟩
        exact ⟨.inr hkey, hseen⟩
      · rintro ⟨rfl | hkey, hseen⟩
        · exact absurd hk hseen
        · exact ⟨hkey, hseen⟩
    · have hk : k ∉ seen := by simpa using hk
      rw [mem_cons, ih, mem_cons, mem_cons, not_or]
      by_cases heq : key = k
      · simp [heq, hk]
      · simp [heq]

theorem nodup_unseen (seen keys : List Text) : (unseen seen keys).Nodup := by
  induction keys generalizing seen with
  | nil => exact .nil
  | cons k keys ih =>
    rw [unseen]
    split_ifs
    · exact ih seen
    · refine nodup_cons.mpr ⟨fun hmem => ?_, ih _⟩
      exact (mem_unseen.mp hmem).2 (mem_cons_self ..)

variable {c : Candidate}

theorem mem_sortByPath {candidates : List Candidate} :
    c ∈ sortByPath candidates ↔ c ∈ candidates := by
  rw [sortByPath, mem_insertionSort]

theorem headCandidate_eq_some :
    headCandidate t key = .ok (some c) ↔
      t.head key = .ok (some (c.size, c.modifiedMs)) ∧ c.key = key ∧ c.path = shown t key := by
  unfold headCandidate
  simp only [bind_eq_ok_iff]
  constructor
  · rintro ⟨found, hfound, h⟩
    obtain _ | ⟨size, modified⟩ := found
    · rw [pure_eq_ok_iff] at h
      cases h
    · rw [pure_eq_ok_iff, Option.some.injEq] at h
      subst h
      exact ⟨hfound, rfl, rfl⟩
  · rintro ⟨hfound, rfl, hpath⟩
    obtain ⟨key, path, size, modified⟩ := c
    exact ⟨_, hfound, by rw [← hpath]; rfl⟩

theorem keys_sublist {keys : List Text} {heads : List (Option Candidate)}
    (h : keys.mapM (headCandidate t) = .ok heads) :
    (heads.reduceOption.map Candidate.key).Sublist keys := by
  induction keys generalizing heads with
  | nil =>
    rw [mapM_nil, pure_eq_ok_iff] at h
    simp [← h]
  | cons key keys ih =>
    rw [mapM_cons, bind_eq_ok_iff] at h
    obtain ⟨head, hhead, h⟩ := h
    obtain ⟨rest, hrest, h⟩ := bind_eq_ok_iff.mp h
    rw [pure_eq_ok_iff] at h
    subst h
    cases head with
    | none =>
      rw [reduceOption_cons_of_none]
      exact (ih hrest).cons key
    | some c =>
      rw [reduceOption_cons_of_some, map_cons, (headCandidate_eq_some.mp hhead).2.1]
      exact (ih hrest).cons_cons key

variable (t) in
/-- An object of the listing that a full VACUUM deletes: below the root, under no
hidden name, older than the cutoff, and no protected file's. -/
structure Garbage (cutoff : Int) (rootPath : List Text) (partitionColumns : List Text)
    (object : ObjectMeta) (parts : List Text) : Prop where
  under : object.location = rootPath ++ parts
  nonempty : parts ≠ []
  visible : ∀ part ∈ parts, hidden (t.lib.decode part) partitionColumns = false
  old : object.lastModified < cutoff
  unreferenced : ∀ url, Protects t cutoff url → ¬ Names t rootPath url (joinParts parts)

/-- A file VACUUM LITE deletes: of an expired remove, under the root, still
there, and no protected file's. -/
structure Removed (t : Table) (cutoff : Int) (rootPath : List Text) (url : Url) (key : Text)
    (size : Nat) (modified : Int) : Prop where
  expired : Expired t cutoff url
  under : isUnder t.root url = true
  key_eq : storeKey t rootPath url = some key
  present : t.head key = .ok (some (size, modified))
  unreferenced : ∀ url, Protects t cutoff url → ¬ Names t rootPath url key

theorem contains_references (h : references t cutoff = .ok (urls, expired)) :
    contains t (urls.flatMap (spellings t rootPath)) key = false ↔
      ∀ url, Protects t cutoff url → ¬ Names t rootPath url key := by
  rw [Bool.eq_false_iff, ne_eq, contains_iff]
  constructor
  · intro hnot url hprotects hnames
    exact hnot ⟨url, (mem_references h).1.mpr hprotects, hnames⟩
  · rintro hnot ⟨url, hurl, hnames⟩
    exact hnot url ((mem_references h).1.mp hurl) hnames

theorem listedCandidate_eq_some (h : references t cutoff = .ok (urls, expired))
    {partitionColumns : List Text} {object : ObjectMeta} :
    listedCandidate t rootPath (urls.flatMap (spellings t rootPath)) cutoff partitionColumns
        object = some c ↔
      ∃ parts, Garbage t cutoff rootPath partitionColumns object parts ∧
        c = ⟨joinParts parts, shown t (joinParts parts), object.size, object.lastModified⟩ := by
  simp only [listedCandidate, Option.bind_eq_bind, Option.bind_eq_some_iff]
  constructor
  · rintro ⟨parts, hparts, hc⟩
    split_ifs at hc with hskip hkeep
    obtain ⟨start, hloc, hstart⟩ := List.dropPrefix?_eq_some_iff.mp hparts
    obtain rfl : start = rootPath := eq_of_beq hstart
    rw [Bool.or_eq_true, not_or] at hskip hkeep
    refine ⟨parts, ⟨hloc, by simpa using hskip.1, by simpa using hskip.2,
      by simpa using hkeep.1, (contains_references h).mp (by simpa using hkeep.2)⟩, ?_⟩
    exact (Option.some.inj hc).symm
  · rintro ⟨parts, hgarbage, rfl⟩
    refine ⟨parts, List.dropPrefix?_eq_some_iff.mpr ⟨rootPath, hgarbage.under, by simp⟩, ?_⟩
    have hskip : ¬ (parts = [] ∨ (parts.any fun part =>
        hidden (t.lib.decode part) partitionColumns) = true) := by
      rintro (hnil | hany)
      · exact hgarbage.nonempty hnil
      · obtain ⟨part, hpart, hhidden⟩ := any_eq_true.mp hany
        rw [hgarbage.visible part hpart] at hhidden
        cases hhidden
    have hkeep : ¬ (cutoff ≤ object.lastModified ∨
        contains t (urls.flatMap (spellings t rootPath)) (joinParts parts) = true) := by
      rintro (hold | hcontains)
      · exact absurd hgarbage.old (not_lt.mpr hold)
      · rw [(contains_references h).mpr hgarbage.unreferenced] at hcontains
        cases hcontains
    simp only [Bool.or_eq_true, decide_eq_true_eq]
    rw [if_neg hskip, if_neg hkeep]

theorem mem_wanted (h : references t cutoff = .ok (urls, expired)) :
    key ∈ wanted t rootPath (urls.flatMap (spellings t rootPath)) expired ↔
      ∃ url, Expired t cutoff url ∧ isUnder t.root url = true ∧
        storeKey t rootPath url = some key ∧
        ∀ url, Protects t cutoff url → ¬ Names t rootPath url key := by
  simp only [wanted, mem_unseen, mem_filter, mem_filterMap, (mem_references h).2,
    Bool.not_eq_true', contains_references h, not_mem_nil, not_false_eq_true, and_true]
  constructor
  · rintro ⟨⟨url, ⟨hexpired, hunder⟩, hkey⟩, hunref⟩
    exact ⟨url, hexpired, hunder, hkey, hunref⟩
  · rintro ⟨url, hexpired, hunder, hkey, hunref⟩
    exact ⟨⟨url, ⟨hexpired, hunder⟩, hkey⟩, hunref⟩

/-- A full VACUUM names exactly the garbage of the listing, VACUUM LITE exactly
the files of expired removes, each once; neither names a protected file. -/
theorem plan_exact {lite : Bool} {partitionColumns : List Text} {out : List Candidate}
    (h : plan t cutoff lite partitionColumns = .ok out) :
    ∃ rootPath, t.lib.fromUrlPath t.root.path = .ok rootPath ∧
      (∀ c ∈ out, ∀ url, Protects t cutoff url → ¬ Names t rootPath url c.key) ∧
      (lite = false → ∃ listed, t.listing = .ok listed ∧ ∀ c, c ∈ out ↔
        ∃ object ∈ listed, ∃ parts, Garbage t cutoff rootPath partitionColumns object parts ∧
          c = ⟨joinParts parts, shown t (joinParts parts), object.size, object.lastModified⟩) ∧
      (lite = true → (out.map Candidate.key).Nodup ∧ ∀ c, c ∈ out ↔
        c.path = shown t c.key ∧
          ∃ url, Removed t cutoff rootPath url c.key c.size c.modifiedMs) := by
  obtain ⟨rootPath, hroot, h⟩ := bind_eq_ok_iff.mp h
  obtain ⟨⟨urls, expired⟩, hrefs, h⟩ := bind_eq_ok_iff.mp h
  cases lite with
  | false =>
    obtain ⟨listed, hlisted, h⟩ := bind_eq_ok_iff.mp h
    rw [pure_eq_ok_iff] at h
    have hmem : ∀ c, c ∈ out ↔ ∃ object ∈ listed, ∃ parts,
        Garbage t cutoff rootPath partitionColumns object parts ∧
        c = ⟨joinParts parts, shown t (joinParts parts), object.size, object.lastModified⟩ := by
      intro c
      simp only [← h, mem_sortByPath, mem_filterMap, listedCandidate_eq_some hrefs]
    refine ⟨rootPath, hroot, fun c hc => ?_, fun _ => ⟨listed, hlisted, hmem⟩, fun hlite => ?_⟩
    · obtain ⟨object, _, parts, hgarbage, rfl⟩ := (hmem c).mp hc
      exact hgarbage.unreferenced
    · cases hlite
  | true =>
    obtain ⟨heads, hheads, h⟩ := bind_eq_ok_iff.mp h
    rw [pure_eq_ok_iff] at h
    have hmem : ∀ c, c ∈ out ↔ c.path = shown t c.key ∧
        ∃ url, Removed t cutoff rootPath url c.key c.size c.modifiedMs := by
      intro c
      simp only [← h, mem_sortByPath, reduceOption_mem_iff, mem_of_mapM_ok hheads,
        headCandidate_eq_some, mem_wanted hrefs]
      constructor
      · rintro ⟨key, ⟨url, hexpired, hunder, hkey, hunref⟩, hhead, rfl, hpath⟩
        exact ⟨hpath, url, hexpired, hunder, hkey, hhead, hunref⟩
      · rintro ⟨hpath, url, hexpired, hunder, hkey, hhead, hunref⟩
        exact ⟨c.key, ⟨url, hexpired, hunder, hkey, hunref⟩, hhead, rfl, hpath⟩
    refine ⟨rootPath, hroot, fun c hc => ?_, fun hlite => ?_, fun _ => ⟨?_, hmem⟩⟩
    · obtain ⟨_, url, hremoved⟩ := (hmem c).mp hc
      exact hremoved.unreferenced
    · cases hlite
    · rw [← h, sortByPath]
      have hperm := (perm_insertionSort (fun a b : Candidate => ¬ b.path < a.path)
        heads.reduceOption).map Candidate.key
      exact hperm.nodup_iff.mpr ((keys_sublist hheads).nodup (nodup_unseen _ _))

end

/-- Relative paths without escapes, read as they stand. -/
def plainLibrary : Library where
  decode := id
  lower := fun text => text.map Char.toLower
  parseUrl := fun _ => .relativeWithoutBase
  join := fun root path => .ok { root with path := root.path ++ path }
  fromUrlPath := fun path => .ok ((segments path).filter (· ≠ []))
  parseDescriptor := fun _ => .error "expected value".toList
  vectorUrl := fun _ _ _ _ _ _ => .ok none
  cdcPath := fun line =>
    if line = "\x7b\"cdc\":\x7b\"path\":\"_change_data/c.parquet\"\x7d\x7d".toList then
      some "_change_data/c.parquet".toList
    else none

def localRoot : Url := ⟨"file".toList, none, none, [], "/t/".toList⟩

/-- A commit written at 60 whose change data, written at 40, is no longer in the
log segment: the checkpoint of version 1 is. One file, written at 10, is live. -/
def changeDataTable : Table where
  lib := plainLibrary
  root := localRoot
  live := .ok [⟨"a.parquet".toList, none⟩]
  removes := .ok []
  commits := [⟨0, 10, .ok []⟩,
    ⟨1, 60, .ok ["\x7b\"cdc\":\x7b\"path\":\"_change_data/c.parquet\"\x7d\x7d".toList]⟩]
  checkpoint := some 1
  listing := .ok [⟨["t".toList, "a.parquet".toList], 5, 10⟩,
    ⟨["t".toList, "_change_data".toList, "c.parquet".toList], 7, 40⟩,
    ⟨["t".toList, "_delta_log".toList, "00000000000000000000.json".toList], 9, 10⟩]
  head := fun _ => .ok none

def changeDataPlan : List Candidate :=
  [⟨"_change_data/c.parquet".toList, "_change_data/c.parquet".toList, 7, 40⟩]

theorem plan_changeDataTable : plan changeDataTable 50 false [] = .ok changeDataPlan := by
  decide +kernel

theorem plan_exact_changeDataTable :
    plan changeDataTable 50 false [] = .ok changeDataPlan ∧
    ∃ rootPath, plainLibrary.fromUrlPath localRoot.path = .ok rootPath ∧
      (∀ c ∈ changeDataPlan, ∀ url, Protects changeDataTable 50 url →
        ¬ Names changeDataTable rootPath url c.key) ∧
      (false = false → ∃ listed, changeDataTable.listing = .ok listed ∧ ∀ c, c ∈ changeDataPlan ↔
        ∃ object ∈ listed, ∃ parts, Garbage changeDataTable 50 rootPath [] object parts ∧
          c = ⟨joinParts parts, shown changeDataTable (joinParts parts), object.size,
            object.lastModified⟩) ∧
      (false = true → (changeDataPlan.map Candidate.key).Nodup ∧ ∀ c, c ∈ changeDataPlan ↔
        c.path = shown changeDataTable c.key ∧
          ∃ url, Removed changeDataTable 50 rootPath url c.key c.size c.modifiedMs) :=
  ⟨plan_changeDataTable, plan_exact plan_changeDataTable⟩

/-- `str::to_lowercase` where a sigma is the only letter that goes by its place. -/
def greekLower : Text → Text
  | [] => []
  | c :: rest =>
    (if c = 'Α' then 'α'
      else if c = 'Σ' then if rest.head? = some '/' then 'ς' else 'σ'
      else c.toLower) :: greekLower rest

def greekUpper (c : Char) : Char :=
  if c = 'α' then 'Α' else if c = 'σ' ∨ c = 'ς' then 'Σ' else c.toUpper

/-- A live file, listed in another case. -/
def greekTable : Table where
  lib := { plainLibrary with lower := greekLower }
  root := localRoot
  live := .ok [⟨"ΑΣ/x.parquet".toList, none⟩]
  removes := .ok []
  commits := []
  checkpoint := none
  listing := .ok [⟨["t".toList, "ασ".toList, "x.parquet".toList], 5, 10⟩]
  head := fun _ => .ok none

/-- The change data of a commit at or after the cutoff is offered for deletion
once a checkpoint at or above that commit is there; and so is a live file listed
in another case, where the case of one character goes by its place. -/
theorem checkpointed_changeData_offered :
    (¬ ∀ t cutoff lite partitionColumns out, plan t cutoff lite partitionColumns = .ok out →
      ∀ c ∈ out, ∀ commit ∈ t.commits, cutoff ≤ commit.lastModified →
        ∀ lines, commit.lines = .ok lines → ∀ line ∈ lines, ∀ path,
          t.lib.cdcPath line = some path → ∀ url, resolve t path = .ok url →
            ∀ rootPath, t.lib.fromUrlPath t.root.path = .ok rootPath →
              ¬ Names t rootPath url c.key) ∧
    ¬ ∀ t cutoff lite partitionColumns out, plan t cutoff lite partitionColumns = .ok out →
      ∀ c ∈ out, ∀ files, t.live = .ok files → ∀ f ∈ files,
        c.key.map greekUpper ≠ f.path.map greekUpper := by
  constructor
  · intro h
    refine h _ _ _ _ _ plan_changeDataTable _ (mem_singleton.mpr rfl)
      ⟨1, 60, .ok ["\x7b\"cdc\":\x7b\"path\":\"_change_data/c.parquet\"\x7d\x7d".toList]⟩
      (by simp [changeDataTable]) (by decide) _ rfl _ (mem_singleton.mpr rfl)
      "_change_data/c.parquet".toList (by decide +kernel)
      { localRoot with path := "/t/_change_data/c.parquet".toList } (by decide +kernel)
      ["t".toList] (by decide +kernel) ⟨by decide +kernel, "_change_data/c.parquet".toList, ?_⟩
    exact ⟨.inl (by decide +kernel), .inl rfl⟩
  · intro h
    have hplan : plan greekTable 50 false [] =
        .ok [⟨"ασ/x.parquet".toList, "ασ/x.parquet".toList, 5, 10⟩] := by
      decide +kernel
    refine h _ _ _ _ _ hplan _ (mem_singleton.mpr rfl) _ rfl _ (mem_singleton.mpr rfl) ?_
    decide +kernel

end DeltaSwamp.Vacuum
