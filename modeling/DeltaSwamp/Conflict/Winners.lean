import DeltaSwamp.Table.Rebase

/-!
# The commits that won

What other writers commit after a read: writes, compactions and restores, over
rows marked where a blind append that won wrote them; and where a row live
after some of them comes from.
-/

namespace DeltaSwamp.Conflict

open Table List

def listed (log : Log) : List Path := log.flatMap fun e => e.adds.map AddFile.path

def livePaths (log : Log) : List Path := (files log).map AddFile.path

section
variable {ν : Type} (upperChar lowerChar : Char → Text) (st : Storage (ν × Bool))

/-- Whether the conflict check takes a commit for a blind append. -/
def isBlind (entry : Entry) : Bool :=
  match entry.blind upperChar lowerChar with
  | .ok b => b
  | .error _ => false

/-- An append, DML, MERGE or overwrite, or a change of metadata or protocol:
files of its own, and live files listed anew with fewer rows. -/
structure Writes (log : Log) (entry : Entry) : Prop where
  dataChange : ∀ g ∈ entry.adds, g.dataChange = true
  added : ∀ g ∈ entry.adds, g.path ∉ listed log ∨
    ∃ f ∈ files log, f.path = g.path ∧ f.key ∈ entry.removes ∧ st.visible g ⊆ st.visible f
  marked : ∀ g ∈ entry.adds, g.path ∉ listed log →
    ∀ r ∈ st.contents g.path, r.2 = isBlind upperChar lowerChar entry

/-- An OPTIMIZE: the rows of the files it removes, in files of its own. -/
structure Compacts (log : Log) (entry : Entry) : Prop where
  dataChange : ∀ g ∈ entry.adds, g.dataChange = false
  added : ∀ g ∈ entry.adds, g.path ∉ listed log
  rows : st.bag entry.adds = st.bag ((files log).filter fun f => f.key ∈ entry.removes)

/-- A RESTORE: files of an earlier version, as they were listed there. -/
structure Restores (log : Log) (entry : Entry) : Prop where
  dataChange : ∀ g ∈ entry.adds, g.dataChange = true
  notBlind : isBlind upperChar lowerChar entry = false
  target : ∃ n, ∀ g ∈ files (log ++ [entry]), ∃ f ∈ files (log.take n),
    f.path = g.path ∧ f.deletionVector = g.deletionVector

inductive Winner (log : Log) (entry : Entry) : Prop where
  | writes (h : Writes upperChar lowerChar st log entry)
  | compacts (h : Compacts st log entry)
  | restores (h : Restores upperChar lowerChar log entry)

/-- A run of winners over a snapshot, each of which leaves a valid table. -/
inductive Follows (allowed : Entry → Prop) (read : Log) : List Entry → Prop where
  | refl (h : st.Valid read) : Follows allowed read []
  | step {winners : List Entry} {entry : Entry} (h : Follows allowed read winners)
      (hwinner : Winner upperChar lowerChar st (read ++ winners) entry)
      (hallowed : allowed entry) (hvalid : st.Valid (read ++ winners ++ [entry])) :
      Follows allowed read (winners ++ [entry])

/-- The rows of a file a statement acts on that no winning blind append wrote. -/
def concerned (acts : ν → Bool) (r : ν × Bool) : Bool := acts r.1 && !r.2

/-- No file live at the read is listed with a row, then hidden, of those concerned. -/
def NoRevival (acts : ν → Bool) (read : Log) (entry : Entry) : Prop :=
  ∀ g ∈ entry.adds, ∀ f ∈ files read, f.path = g.path →
    ∀ r ∈ st.rowsAt g.path (st.visible g \ st.visible f), concerned acts r = false

/-- The paths `_added_what_was_read` collects. -/
def addedBy (liveAtRead : List Path) (winners : List Entry) : List Path :=
  winners.flatMap fun e =>
    if isBlind upperChar lowerChar e then []
    else (e.adds.filter fun f => f.dataChange && f.path ∉ liveAtRead).map AddFile.path

/-- A row of a file is one of the read, in this file or in one gone since, or
comes with the paths collected, from this file or from one gone since. -/
def Origin (read : Log) (winners : List Entry) (f : AddFile) (r : ν × Bool) : Prop :=
  (∃ f₀ ∈ files read, r ∈ st.liveRows f₀ ∧
    (f₀.path = f.path ∨ f₀.path ∉ livePaths (read ++ winners))) ∨
  ∃ x ∈ addedBy upperChar lowerChar (livePaths read) winners,
    x = f.path ∨ x ∉ livePaths (read ++ winners)

/-- Where the rows concerned come from, and the files that came back: none of
those live at the read shows more of them than it did. -/
structure Traced (acts : ν → Bool) (read : Log) (winners : List Entry) : Prop where
  rows : ∀ f ∈ files (read ++ winners), ∀ r ∈ st.liveRows f, concerned acts r = true →
    Origin upperChar lowerChar st read winners f r
  shown : ∀ f ∈ files (read ++ winners), ∀ f₀ ∈ files read, f₀.path = f.path →
    ∀ r ∈ st.liveRows f, concerned acts r = true → r ∈ st.liveRows f₀
  back : ∀ f ∈ files (read ++ winners), f.path ∉ livePaths read → f.path ∈ listed read →
    f.path ∈ addedBy upperChar lowerChar (livePaths read) winners

end

theorem listed_append (log more : Log) : listed (log ++ more) = listed log ++ listed more := by
  simp [listed]

theorem livePaths_subset_listed (log : Log) : livePaths log ⊆ listed log := by
  intro path hpath
  obtain ⟨f, hf, rfl⟩ := mem_map.mp hpath
  clear hpath
  induction log using List.reverseRecOn with
  | nil => cases hf
  | append_singleton log entry ih =>
    rw [listed_append, mem_append]
    rw [files_append, mem_reconcile] at hf
    rcases hf with ⟨hf, -⟩ | hf
    · exact .inl (ih hf)
    · refine .inr ?_
      simp only [listed, flatMap_singleton]
      exact mem_map_of_mem hf

theorem mem_files_append {log : Log} {entry : Entry} {f : AddFile}
    (h : f ∈ files (log ++ [entry])) :
    (f ∈ files log ∧ f.key ∉ entry.removes) ∨ f ∈ entry.adds := by
  rw [files_append, mem_reconcile] at h
  rcases h with ⟨hf, hremoved, -⟩ | hf
  · exact .inl ⟨hf, hremoved⟩
  · exact .inr hf

theorem gone_stays {log : Log} {entry : Entry} {path : Path} (h : path ∉ livePaths log)
    (hadded : ∀ g ∈ entry.adds, g.path ≠ path) : path ∉ livePaths (log ++ [entry]) := by
  intro hpath
  obtain ⟨f, hf, rfl⟩ := mem_map.mp hpath
  rcases mem_files_append hf with ⟨hf, -⟩ | hf
  · exact h (mem_map_of_mem hf)
  · exact hadded f hf rfl

section
variable {ν : Type} {upperChar lowerChar : Char → Text} {st : Storage (ν × Bool)}
  {acts : ν → Bool} {read : Log} {winners : List Entry} {entry : Entry}

theorem addedBy_append (liveAtRead : List Path) (more : List Entry) :
    addedBy upperChar lowerChar liveAtRead (winners ++ more) =
      addedBy upperChar lowerChar liveAtRead winners ++
        addedBy upperChar lowerChar liveAtRead more := by
  simp [addedBy]

theorem addedBy_take (liveAtRead : List Path) (n : Nat) :
    addedBy upperChar lowerChar liveAtRead (winners.take n) ⊆
      addedBy upperChar lowerChar liveAtRead winners := by
  conv_rhs => rw [← take_append_drop n winners, addedBy_append]
  exact subset_append_left _ _

variable {g : AddFile}

theorem mem_addedBy_last {liveAtRead : List Path}
    (hblind : isBlind upperChar lowerChar entry = false) (hg : g ∈ entry.adds)
    (hdata : g.dataChange = true) (hnew : g.path ∉ liveAtRead) :
    g.path ∈ addedBy upperChar lowerChar liveAtRead (winners ++ [entry]) := by
  rw [addedBy_append, mem_append]
  refine .inr ?_
  simp only [addedBy, flatMap_singleton, hblind, Bool.false_eq_true, if_false]
  exact mem_map_of_mem (mem_filter.mpr ⟨hg, by simp [hdata, hnew]⟩)

variable {path : Path}

theorem addedBy_listed {liveAtRead : List Path}
    (h : path ∈ addedBy upperChar lowerChar liveAtRead winners) : path ∈ listed winners := by
  obtain ⟨e, he, hpath⟩ := mem_flatMap.mp h
  split_ifs at hpath
  · cases hpath
  · obtain ⟨f, hf, rfl⟩ := mem_map.mp hpath
    exact mem_flatMap.mpr ⟨e, he, mem_map_of_mem (mem_filter.mp hf).1⟩

variable {f : AddFile}

theorem listed_of_read (h : f ∈ files read) : f.path ∈ listed (read ++ winners) := by
  rw [listed_append, mem_append]
  exact .inl (livePaths_subset_listed read (mem_map_of_mem h))

theorem Origin.later {r : ν × Bool} (h : Origin upperChar lowerChar st read winners f r)
    (hgone : ∀ path ∈ listed (read ++ winners), path ∉ livePaths (read ++ winners) →
      path ∉ livePaths (read ++ winners ++ [entry]))
    (hpath : f.path = g.path ∨ f.path ∉ livePaths (read ++ winners ++ [entry])) :
    Origin upperChar lowerChar st read (winners ++ [entry]) g r := by
  unfold Origin
  rw [← append_assoc]
  rcases h with ⟨f₀, hf₀, hr, hsame | hnot⟩ | ⟨x, hx, hsame | hnot⟩
  · refine .inl ⟨f₀, hf₀, hr, ?_⟩
    rw [hsame]
    exact hpath
  · exact .inl ⟨f₀, hf₀, hr, .inr (hgone f₀.path (listed_of_read hf₀) hnot)⟩
  · refine .inr ⟨x, ?_, ?_⟩
    · rw [addedBy_append]
      exact mem_append_left _ hx
    · rw [hsame]
      exact hpath
  · refine .inr ⟨x, ?_, .inr (hgone x ?_ hnot)⟩
    · rw [addedBy_append]
      exact mem_append_left _ hx
    · rw [listed_append, mem_append]
      exact .inr (addedBy_listed hx)

theorem Writes.gone (h : Writes upperChar lowerChar st (read ++ winners) entry) :
    ∀ path ∈ listed (read ++ winners), path ∉ livePaths (read ++ winners) →
      path ∉ livePaths (read ++ winners ++ [entry]) := by
  intro path hlisted hnot
  refine gone_stays hnot fun g hg hpath => ?_
  rcases h.added g hg with hfresh | ⟨f, hf, hsame, -⟩
  · exact hfresh (hpath ▸ hlisted)
  · exact hnot (hpath ▸ hsame ▸ mem_map_of_mem hf)

theorem Compacts.gone (h : Compacts st (read ++ winners) entry) :
    ∀ path ∈ listed (read ++ winners), path ∉ livePaths (read ++ winners) →
      path ∉ livePaths (read ++ winners ++ [entry]) := by
  intro path hlisted hnot
  refine gone_stays hnot fun g hg hpath => ?_
  exact h.added g hg (hpath ▸ hlisted)

theorem rowsAt_subset {shown more : Finset Nat} (h : shown ⊆ more) :
    st.rowsAt path shown ⊆ st.rowsAt path more := by
  intro r hr
  obtain ⟨x, hx, rfl⟩ := mem_map.mp hr
  obtain ⟨hx, hshown⟩ := mem_filter.mp hx
  exact mem_map_of_mem (mem_filter.mpr ⟨hx, by simpa using h (by simpa using hshown)⟩)

theorem rowsAt_sdiff {more : Finset Nat} {r : ν × Bool} (shown : Finset Nat)
    (h : r ∈ st.rowsAt path more) :
    r ∈ st.rowsAt path shown ∨ r ∈ st.rowsAt path (more \ shown) := by
  obtain ⟨x, hx, rfl⟩ := mem_map.mp h
  obtain ⟨hx, hmore⟩ := mem_filter.mp hx
  by_cases hshown : x.2 ∈ shown
  · exact .inl (mem_map_of_mem (mem_filter.mpr ⟨hx, by simpa using hshown⟩))
  · refine .inr (mem_map_of_mem (mem_filter.mpr ⟨hx, ?_⟩))
    simpa [hshown] using hmore

theorem rowsAt_contents {shown : Finset Nat} : st.rowsAt path shown ⊆ st.contents path := by
  intro r hr
  obtain ⟨x, hx, rfl⟩ := mem_map.mp hr
  have hmem := mem_zipIdx_iff_getElem?.mp (mem_filter.mp hx).1
  exact mem_of_getElem? hmem

theorem liveRows_subset (hpath : f.path = g.path) (h : st.visible g ⊆ st.visible f) :
    st.liveRows g ⊆ st.liveRows f := by
  unfold Storage.liveRows
  rw [hpath]
  exact rowsAt_subset h

theorem Traced.writes (h : Traced upperChar lowerChar st acts read winners)
    (hwrites : Writes upperChar lowerChar st (read ++ winners) entry) :
    Traced upperChar lowerChar st acts read (winners ++ [entry]) := by
  constructor
  · intro f hf r hr hconcerned
    rw [← append_assoc] at hf
    rcases mem_files_append hf with ⟨hold, -⟩ | hnew
    · exact (h.rows f hold r hr hconcerned).later hwrites.gone (.inl rfl)
    · rcases hwrites.added f hnew with hfresh | ⟨f', hf', hpath, -, hsub⟩
      · have hmark := hwrites.marked f hnew hfresh r (rowsAt_contents hr)
        have hblind : isBlind upperChar lowerChar entry = false := by
          rw [← hmark]
          simpa using (Bool.and_eq_true_iff.mp hconcerned).2
        have hread : f.path ∉ livePaths read := by
          intro hlive
          obtain ⟨f₀, hf₀, hsame⟩ := mem_map.mp hlive
          exact hfresh (hsame ▸ listed_of_read hf₀)
        exact .inr ⟨f.path, mem_addedBy_last hblind hnew (hwrites.dataChange f hnew) hread,
          .inl rfl⟩
      · exact (h.rows f' hf' r (liveRows_subset hpath hsub hr) hconcerned).later hwrites.gone
          (.inl hpath)
  · intro f hf f₀ hf₀ hsame r hr hconcerned
    rw [← append_assoc] at hf
    rcases mem_files_append hf with ⟨hold, -⟩ | hnew
    · exact h.shown f hold f₀ hf₀ hsame r hr hconcerned
    · rcases hwrites.added f hnew with hfresh | ⟨f', hf', hpath, -, hsub⟩
      · exact absurd (hsame ▸ listed_of_read hf₀) hfresh
      · exact h.shown f' hf' f₀ hf₀ (hsame.trans hpath.symm) r (liveRows_subset hpath hsub hr)
          hconcerned
  · intro f hf hread hlisted
    rw [← append_assoc] at hf
    have hback : ∀ f' ∈ files (read ++ winners), f'.path = f.path →
        f.path ∈ addedBy upperChar lowerChar (livePaths read) (winners ++ [entry]) := by
      intro f' hf' hpath
      rw [addedBy_append]
      exact mem_append_left _ (hpath ▸ h.back f' hf' (hpath ▸ hread) (hpath ▸ hlisted))
    rcases mem_files_append hf with ⟨hold, -⟩ | hnew
    · exact hback f hold rfl
    · rcases hwrites.added f hnew with hfresh | ⟨f', hf', hpath, -⟩
      · refine absurd ?_ hfresh
        rw [listed_append, mem_append]
        exact .inl hlisted
      · exact hback f' hf' hpath

theorem Traced.compacts (h : Traced upperChar lowerChar st acts read winners)
    (hvalid : st.Valid (read ++ winners))
    (hcompacts : Compacts st (read ++ winners) entry) :
    Traced upperChar lowerChar st acts read (winners ++ [entry]) := by
  constructor
  · intro f hf r hr hconcerned
    rw [← append_assoc] at hf
    rcases mem_files_append hf with ⟨hold, -⟩ | hnew
    · exact (h.rows f hold r hr hconcerned).later hcompacts.gone (.inl rfl)
    · have hmoved : r ∈ st.bag entry.adds :=
        Multiset.mem_coe.mpr (mem_flatMap.mpr ⟨f, hnew, hr⟩)
      rw [hcompacts.rows] at hmoved
      obtain ⟨f', hf', hr'⟩ := mem_flatMap.mp (Multiset.mem_coe.mp hmoved)
      obtain ⟨hf', hremoved⟩ := mem_filter.mp hf'
      refine (h.rows f' hf' r hr' hconcerned).later hcompacts.gone (.inr fun hlive => ?_)
      obtain ⟨g, hg, hpath⟩ := mem_map.mp hlive
      rcases mem_files_append hg with ⟨hg, hkept⟩ | hg
      · rw [inj_on_of_nodup_map hvalid.nodup hg hf' hpath] at hkept
        exact hkept (of_decide_eq_true hremoved)
      · refine hcompacts.added g hg ?_
        rw [hpath]
        exact livePaths_subset_listed _ (mem_map_of_mem hf')
  · intro f hf f₀ hf₀ hsame r hr hconcerned
    rw [← append_assoc] at hf
    rcases mem_files_append hf with ⟨hold, -⟩ | hnew
    · exact h.shown f hold f₀ hf₀ hsame r hr hconcerned
    · exact absurd (hsame ▸ listed_of_read hf₀) (hcompacts.added f hnew)
  · intro f hf hread hlisted
    rw [← append_assoc] at hf
    rcases mem_files_append hf with ⟨hold, -⟩ | hnew
    · rw [addedBy_append]
      exact mem_append_left _ (h.back f hold hread hlisted)
    · refine absurd ?_ (hcompacts.added f hnew)
      rw [listed_append, mem_append]
      exact .inl hlisted

theorem liveRows_congr (hpath : f.path = g.path) (hvector : f.deletionVector = g.deletionVector) :
    st.liveRows f = st.liveRows g := by
  simp only [Storage.liveRows, Storage.visible, Storage.hiddenRows, Storage.count, hpath, hvector]

theorem livePaths_restored {log target : Log}
    (h : ∀ g ∈ files log, ∃ f ∈ files target,
      f.path = g.path ∧ f.deletionVector = g.deletionVector) :
    livePaths log ⊆ livePaths target := by
  intro path hpath
  obtain ⟨g, hg, rfl⟩ := mem_map.mp hpath
  obtain ⟨f, hf, hsame, -⟩ := h g hg
  exact hsame ▸ mem_map_of_mem hf

/-- Files back from a version the winners wrote come from where they did then;
files back from an earlier one are collected or live at the read. -/
theorem Traced.restores (h : ∀ n, Traced upperChar lowerChar st acts read (winners.take n))
    (hrestores : Restores upperChar lowerChar (read ++ winners) entry)
    (hrevival : NoRevival st acts read entry) :
    Traced upperChar lowerChar st acts read (winners ++ [entry]) := by
  obtain ⟨n, hn⟩ := hrestores.target
  have hwhole : Traced upperChar lowerChar st acts read winners := by
    have hall := h winners.length
    rwa [take_length] at hall
  have hback : ∀ f ∈ files (read ++ winners ++ [entry]), f.path ∉ livePaths read →
      f.path ∈ listed read →
      f.path ∈ addedBy upperChar lowerChar (livePaths read) (winners ++ [entry]) := by
    intro f hf hread hlisted
    rcases mem_files_append hf with ⟨hold, -⟩ | hnew
    · rw [addedBy_append]
      exact mem_append_left _ (hwhole.back f hold hread hlisted)
    · exact mem_addedBy_last hrestores.notBlind hnew (hrestores.dataChange f hnew) hread
  have hshown : ∀ g ∈ files (read ++ winners ++ [entry]), ∀ f₀ ∈ files read, f₀.path = g.path →
      ∀ r ∈ st.liveRows g, concerned acts r = true → r ∈ st.liveRows f₀ := by
    intro g hg f₀ hf₀ hsame r hr hconcerned
    rcases mem_files_append hg with ⟨hold, -⟩ | hnew
    · exact hwhole.shown g hold f₀ hf₀ hsame r hr hconcerned
    · unfold Storage.liveRows at hr ⊢
      rw [hsame]
      rcases rowsAt_sdiff (st.visible f₀) hr with hr | hr
      · exact hr
      · rw [hrevival g hnew f₀ hf₀ hsame r hr] at hconcerned
        cases hconcerned
  constructor
  case shown => rwa [append_assoc] at hshown
  case back => rwa [append_assoc] at hback
  intro g hg r hr hconcerned
  rw [← append_assoc] at hg
  obtain ⟨f, hf, hpath, hvector⟩ := hn g hg
  have hrows : r ∈ st.liveRows f := by
    rw [liveRows_congr hpath hvector]
    exact hr
  by_cases hlater : read.length ≤ n
  · have htake : (read ++ winners).take n = read ++ winners.take (n - read.length) := by
      rw [take_append, take_of_length_le hlater]
    rw [htake] at hf hn
    have hlive := livePaths_restored hn
    unfold Origin
    rw [← append_assoc, addedBy_append]
    rcases (h (n - read.length)).rows f hf r hrows hconcerned with
      ⟨f₀, hf₀, hr₀, hsame | hgone⟩ | ⟨x, hx, hsame | hgone⟩
    · exact .inl ⟨f₀, hf₀, hr₀, .inl (hsame.trans hpath)⟩
    · exact .inl ⟨f₀, hf₀, hr₀, .inr fun hmem => hgone (hlive hmem)⟩
    · exact .inr ⟨x, mem_append_left _ (addedBy_take _ _ hx), .inl (hsame.trans hpath)⟩
    · exact .inr ⟨x, mem_append_left _ (addedBy_take _ _ hx),
        .inr fun hmem => hgone (hlive hmem)⟩
  · have htake : (read ++ winners).take n = read.take n :=
      take_append_of_le_length (by omega)
    rw [htake] at hf
    have hlisted : g.path ∈ listed read := by
      have hpre := livePaths_subset_listed _ (mem_map_of_mem hf)
      rw [hpath] at hpre
      rw [← take_append_drop n read, listed_append]
      exact mem_append_left _ hpre
    by_cases hread : g.path ∈ livePaths read
    · obtain ⟨f₀, hf₀, hsame⟩ := mem_map.mp hread
      exact .inl ⟨f₀, hf₀, hshown g hg f₀ hf₀ hsame r hr hconcerned, .inl hsame⟩
    · exact .inr ⟨g.path, hback g hg hread hlisted, .inl rfl⟩

theorem Follows.valid {allowed : Entry → Prop}
    (h : Follows upperChar lowerChar st allowed read winners) : st.Valid (read ++ winners) := by
  cases h with
  | refl h => rwa [append_nil]
  | step _ _ _ hvalid => rwa [← append_assoc]

theorem Traced.atRead (hvalid : st.Valid read) : Traced upperChar lowerChar st acts read [] := by
  constructor
  · intro f hf r hr _
    rw [append_nil] at hf
    exact .inl ⟨f, hf, hr, .inl rfl⟩
  · intro f hf f₀ hf₀ hsame r hr _
    rw [append_nil] at hf
    rwa [inj_on_of_nodup_map hvalid.nodup hf₀ hf hsame]
  · intro f hf hread _
    rw [append_nil] at hf
    exact absurd (mem_map_of_mem hf) hread

theorem traced (h : Follows upperChar lowerChar st (NoRevival st acts read) read winners) :
    ∀ n, Traced upperChar lowerChar st acts read (winners.take n) := by
  induction h with
  | refl hvalid =>
    intro n
    rw [take_nil]
    exact .atRead hvalid
  | @step winners entry hbefore hwinner hallowed hvalid ih =>
    intro n
    by_cases hn : n ≤ winners.length
    · rw [take_append_of_le_length hn]
      exact ih n
    · have hlength : (winners ++ [entry]).length ≤ n := by simp; omega
      have hwhole : Traced upperChar lowerChar st acts read winners := by
        have hall := ih winners.length
        rwa [take_length] at hall
      rw [take_of_length_le hlength]
      cases hwinner with
      | writes hwrites => exact hwhole.writes hwrites
      | compacts hcompacts => exact hwhole.compacts hbefore.valid hcompacts
      | restores hrestores => exact .restores ih hrestores hallowed

end

section
variable {ν : Type} {upperChar lowerChar : Char → Text} {st : Storage (ν × Bool)}
  {acts : ν → Bool} {keeps : Text → AddFile → Bool} {read : Log} {winners : List Entry}
  {readPredicate : Option Text} {touched : List Path}

theorem newPaths_eq {liveAtRead : List Path} {entry : Entry} {paths : List Path}
    (h : newPaths upperChar lowerChar liveAtRead entry = .ok paths) :
    paths = if isBlind upperChar lowerChar entry then []
      else (entry.adds.filter fun f => f.dataChange && f.path ∉ liveAtRead).map AddFile.path := by
  obtain ⟨b, hb, h⟩ := Result.bind_eq_ok_iff.mp h
  have hblind : isBlind upperChar lowerChar entry = b := by rw [isBlind, hb]
  rw [hblind]
  cases b with
  | true => exact (Except.ok.inj h).symm
  | false => exact (Except.ok.inj h).symm

theorem mapM_newPaths {liveAtRead : List Path} {paths : List (List Path)}
    (h : winners.mapM (newPaths upperChar lowerChar liveAtRead) = .ok paths) :
    paths.flatten = addedBy upperChar lowerChar liveAtRead winners := by
  induction winners generalizing paths with
  | nil =>
    rw [mapM_nil, Result.pure_eq_ok_iff] at h
    rw [← h]
    rfl
  | cons e winners ih =>
    rw [mapM_cons] at h
    obtain ⟨first, hfirst, h⟩ := Result.bind_eq_ok_iff.mp h
    obtain ⟨others, hothers, h⟩ := Result.bind_eq_ok_iff.mp h
    rw [Result.pure_eq_ok_iff] at h
    rw [← h, flatten_cons, newPaths_eq hfirst, ih hothers]
    rfl

theorem skipped_of_check (hread : read ≠ [])
    (h : addedWhatWasRead upperChar lowerChar keeps read (read ++ winners) readPredicate =
      .ok false) {x : Path} (hx : x ∈ addedBy upperChar lowerChar (livePaths read) winners) :
    x ∈ livePaths (read ++ winners) ∧ ∃ p, readPredicate = some p ∧
      ∀ f ∈ files (read ++ winners), f.path = x → keeps p f = false := by
  have hwinners : Table.winners read (read ++ winners) = winners := by
    have hlength := length_pos_of_ne_nil hread
    rw [Table.winners, version, Nat.sub_add_cancel hlength, drop_left]
  unfold addedWhatWasRead at h
  obtain ⟨paths, hpaths, h⟩ := Result.bind_eq_ok_iff.mp h
  rw [hwinners] at hpaths
  have hadded := mapM_newPaths hpaths
  have hne : paths.flatten ≠ [] := by
    rw [hadded]
    exact ne_nil_of_mem hx
  rw [if_neg hne, hadded] at h
  cases readPredicate with
  | none => cases h
  | some p =>
    have hfalse := Except.ok.inj h
    rw [Bool.or_eq_false_iff, any_eq_false, any_eq_false] at hfalse
    refine ⟨by simpa [livePaths] using hfalse.2 x hx, p, rfl, fun f hf hpath => ?_⟩
    have hnot := hfalse.1 x hx
    simp only [mem_map, mem_filter, decide_eq_true_eq] at hnot
    rw [← Bool.not_eq_true]
    exact fun hkeeps => hnot ⟨f, ⟨hf, hkeeps⟩, hpath⟩

/-- A file the read predicate skips holds no row the statement acts on. -/
def SkipsSoundly (st : Storage (ν × Bool)) (keeps : Text → AddFile → Bool)
    (readPredicate : Option Text) (acts : ν → Bool) : Prop :=
  ∀ p, readPredicate = some p → ∀ f, keeps p f = false → ∀ r ∈ st.liveRows f, acts r.1 = false

/-- The rows concerned are in the files touched, which are as they were read. -/
structure Covered (st : Storage (ν × Bool)) (acts : ν → Bool) (touched : List Path)
    (origin log : Log) : Prop where
  rows : ∀ f ∈ files log, ∀ r ∈ st.liveRows f, concerned acts r = true → f.path ∈ touched
  vectors : ∀ path ∈ touched, (vectorOf origin path).isSome = true ∧
    vectorOf origin path = vectorOf log path

variable {reads : ν → Bool}

theorem SkipsSoundly.mono (h : SkipsSoundly st keeps readPredicate reads)
    (hacts : ∀ r, acts r = true → reads r = true) : SkipsSoundly st keeps readPredicate acts := by
  intro p hp f hskipped r hr
  have hnot := h p hp f hskipped r hr
  rw [← Bool.not_eq_true] at hnot ⊢
  exact fun hact => hnot (hacts r.1 hact)

theorem NoRevival.mono {entry : Entry} (h : NoRevival st reads read entry)
    (hacts : ∀ r, acts r = true → reads r = true) : NoRevival st acts read entry := by
  intro g hg f hf hpath r hr
  have hnot := h g hg f hf hpath r hr
  rw [← Bool.not_eq_true, concerned, Bool.and_eq_true] at hnot ⊢
  exact fun hconcerned => hnot ⟨hacts r.1 hconcerned.1, hconcerned.2⟩

theorem Follows.mono {allowed allowed' : Entry → Prop} (himp : ∀ e, allowed e → allowed' e)
    (h : Follows upperChar lowerChar st allowed read winners) :
    Follows upperChar lowerChar st allowed' read winners := by
  induction h with
  | refl hvalid => exact .refl hvalid
  | step _ hwinner hallowed hvalid ih => exact .step ih hwinner (himp _ hallowed) hvalid

variable {log : Log}

theorem vectorOf_isSome {path : Path} (h : (vectorOf log path).isSome = true) :
    path ∈ livePaths log := by
  obtain ⟨v, hv⟩ := Option.isSome_iff_exists.mp h
  obtain ⟨f, hf, -⟩ := Option.map_eq_some_iff.mp hv
  obtain ⟨hf, hpath⟩ := mem_filter.mp (mem_of_getLast? hf)
  exact of_decide_eq_true hpath ▸ mem_map_of_mem hf

variable {origin : Log}

theorem Covered.rebase (h : Covered st acts touched origin read) (hread : read ≠ [])
    (hfollows : Follows upperChar lowerChar st (NoRevival st acts read) read winners)
    (hsound : SkipsSoundly st keeps readPredicate acts)
    (hrebase : rebaseDvCommit upperChar lowerChar keeps read (read ++ winners) touched
      readPredicate false = .ok (some (read ++ winners))) :
    Covered st acts touched origin (read ++ winners) := by
  obtain ⟨-, -, -, -, -, hvectors, hadded⟩ := rebaseDvCommit_eq_some_iff.mp hrebase
  rw [vectorsUnchanged_iff] at hvectors
  have hlive : ∀ path ∈ touched, path ∈ livePaths (read ++ winners) := by
    intro path hpath
    obtain ⟨hsome, hsame⟩ := hvectors path hpath
    exact vectorOf_isSome (hsame ▸ hsome)
  have hchecked : addedWhatWasRead upperChar lowerChar keeps read (read ++ winners)
      readPredicate = .ok false := by simpa using hadded
  have htraced : Traced upperChar lowerChar st acts read winners := by
    have hall := traced hfollows winners.length
    rwa [take_length] at hall
  constructor
  · intro f hf r hr hconcerned
    rcases htraced.rows f hf r hr hconcerned with ⟨f₀, hf₀, hr₀, horigin⟩ | ⟨x, hx, horigin⟩
    · have htouched := h.rows f₀ hf₀ r hr₀ hconcerned
      rcases horigin with hsame | hgone
      · rwa [← hsame]
      · exact absurd (hlive f₀.path htouched) hgone
    · obtain ⟨hxlive, p, hp, hskipped⟩ := skipped_of_check hread hchecked hx
      rcases horigin with hsame | hgone
      · have hnone := hsound p hp f (hskipped f hf hsame.symm) r hr
        rw [concerned, hnone] at hconcerned
        cases hconcerned
      · exact absurd hxlive hgone
  · intro path hpath
    exact ⟨(h.vectors path hpath).1, (h.vectors path hpath).2.trans (hvectors path hpath).2⟩

/-- The snapshots the rebases of a commit return, one after the other. -/
inductive Rebased (upperChar lowerChar : Char → Text) (st : Storage (ν × Bool)) (acts : ν → Bool)
    (keeps : Text → AddFile → Bool) (touched : List Path) (readPredicate : Option Text)
    (origin : Log) : Log → Prop where
  | started (hvalid : st.Valid origin) :
      Rebased upperChar lowerChar st acts keeps touched readPredicate origin origin
  | again {log : Log} {winners : List Entry}
      (h : Rebased upperChar lowerChar st acts keeps touched readPredicate origin log)
      (hfollows : Follows upperChar lowerChar st (NoRevival st acts log) log winners)
      (hrebase : rebaseDvCommit upperChar lowerChar keeps log (log ++ winners) touched
        readPredicate false = .ok (some (log ++ winners))) :
      Rebased upperChar lowerChar st acts keeps touched readPredicate origin (log ++ winners)

theorem Rebased.valid
    (h : Rebased upperChar lowerChar st acts keeps touched readPredicate origin log) :
    st.Valid log := by
  cases h with
  | started hvalid => exact hvalid
  | again _ hfollows _ => exact hfollows.valid

theorem Rebased.valid_origin
    (h : Rebased upperChar lowerChar st acts keeps touched readPredicate origin log) :
    st.Valid origin := by
  induction h with
  | started hvalid => exact hvalid
  | again _ _ _ ih => exact ih

theorem Rebased.mono
    (h : Rebased upperChar lowerChar st reads keeps touched readPredicate origin log)
    (hacts : ∀ r, acts r = true → reads r = true) :
    Rebased upperChar lowerChar st acts keeps touched readPredicate origin log := by
  induction h with
  | started hvalid => exact .started hvalid
  | again _ hfollows hrebase ih =>
    exact .again ih (hfollows.mono fun _ hrevival => hrevival.mono hacts) hrebase

/-- Every row a statement reads on the snapshot returned, but for those of winning blind appends,
was there when it read first. -/
theorem Rebased.known (horigin : origin ≠ [])
    (hsound : SkipsSoundly st keeps readPredicate reads)
    (h : Rebased upperChar lowerChar st reads keeps touched readPredicate origin log) :
    log ≠ [] ∧ ∀ f ∈ files log, ∀ r ∈ st.liveRows f, concerned reads r = true →
      r ∈ st.rows (files origin) := by
  induction h with
  | started => exact ⟨horigin, fun f hf r hr _ => mem_flatMap.mpr ⟨f, hf, hr⟩⟩
  | @again log winners _ hfollows hrebase ih =>
    obtain ⟨hlog, hknown⟩ := ih
    refine ⟨fun hnil => hlog (append_eq_nil_iff.mp hnil).1, fun f hf r hr hread => ?_⟩
    obtain ⟨-, -, -, -, -, -, hadded⟩ := rebaseDvCommit_eq_some_iff.mp hrebase
    have hchecked : addedWhatWasRead upperChar lowerChar keeps log (log ++ winners)
        readPredicate = .ok false := by simpa using hadded
    have htraced : Traced upperChar lowerChar st reads log winners := by
      have hall := traced hfollows winners.length
      rwa [take_length] at hall
    rcases htraced.rows f hf r hr hread with ⟨f₀, hf₀, hr₀, -⟩ | ⟨x, hx, hplace⟩
    · exact hknown f₀ hf₀ r hr₀ hread
    · obtain ⟨hxlive, p, hp, hskipped⟩ := skipped_of_check hlog hchecked hx
      rcases hplace with hsame | hgone
      · have hnone := hsound p hp f (hskipped f hf hsame.symm) r hr
        rw [concerned, hnone] at hread
        cases hread
      · exact absurd hxlive hgone

theorem Rebased.covered (horigin : origin ≠ []) (hsound : SkipsSoundly st keeps readPredicate acts)
    (hcovered : Covered st acts touched origin origin)
    (h : Rebased upperChar lowerChar st acts keeps touched readPredicate origin log) :
    log ≠ [] ∧ Covered st acts touched origin log := by
  induction h with
  | started => exact ⟨horigin, hcovered⟩
  | again _ hfollows hrebase ih =>
    refine ⟨fun hnil => ih.1 (append_eq_nil_iff.mp hnil).1, ?_⟩
    exact ih.2.rebase ih.1 hfollows hsound hrebase

end

end DeltaSwamp.Conflict
