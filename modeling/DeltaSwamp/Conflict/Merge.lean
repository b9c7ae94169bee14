import DeltaSwamp.Conflict.Winners
import DeltaSwamp.Rewrite.Agree

/-!
# MERGE

`KernelMerger._evaluate`: the clauses over the pairs of target and source rows
that match, the target rows and the source rows that match none.
-/

namespace DeltaSwamp.Conflict

open List

inductive Verb (α ρ : Type) where
  | delete
  /-- The row an UPDATE or INSERT writes; none where its evaluation fails. -/
  | write (row : α → Option ρ)

structure Clause (α ρ : Type) where
  condition : Option (α → Option Bool)
  verb : Verb α ρ

section
variable {α ρ : Type}

def Clause.holds (clause : Clause α ρ) (a : α) : Bool :=
  clause.condition.elim true fun p => p a = some true

/-- `applies`: the clause holds, and none before it does. -/
def applies (clauses : List (Clause α ρ)) (index : Nat) (a : α) : Bool :=
  clauses[index]?.any (fun c => c.holds a) && (clauses.take index).all fun c => !c.holds a

/-- Whether some clause acts. -/
def takes (clauses : List (Clause α ρ)) (a : α) : Bool := clauses.any fun c => c.holds a

/-- The rows the clauses write, clause by clause. -/
def written (clauses : List (Clause α ρ)) (rows : List α) : List (Option ρ) :=
  clauses.zipIdx.flatMap fun c => match c.1.verb with
    | .delete => []
    | .write row => (rows.filter (applies clauses c.2)).map row

variable {clauses : List (Clause α ρ)}

theorem takes_of_applies {index : Nat} {a : α} (h : applies clauses index a = true) :
    takes clauses a = true := by
  obtain ⟨c, hc, hholds⟩ := (Option.any_eq_true _ _).mp (Bool.and_eq_true_iff.mp h).1
  exact any_eq_true.mpr ⟨c, mem_of_getElem? hc, hholds⟩

theorem written_perm {rows more : List α}
    (h : (rows.filter (takes clauses)).Perm (more.filter (takes clauses))) :
    (written clauses rows).Perm (written clauses more) := by
  have hpart : ∀ (index : Nat) (xs : List α), xs.filter (applies clauses index) =
      (xs.filter (takes clauses)).filter (applies clauses index) := by
    intro index xs
    rw [filter_filter]
    refine filter_congr fun a _ => ?_
    cases happlies : applies clauses index a with
    | false => rfl
    | true => rw [takes_of_applies happlies]; rfl
  unfold written
  refine List.Perm.flatMap_left _ fun c _ => ?_
  cases c.1.verb with
  | delete => exact .refl _
  | write row =>
    dsimp only
    rw [hpart, hpart c.2 more]
    exact (h.filter _).map row

theorem mapM_perm {β : Type} {f : α → Option β} {xs ys : List α} (h : xs.Perm ys) {as : List β}
    (hxs : xs.mapM f = some as) : ∃ bs, ys.mapM f = some bs ∧ as.Perm bs := by
  induction h generalizing as with
  | nil => exact ⟨as, hxs, .refl as⟩
  | cons x _ ih =>
    rw [mapM_cons] at hxs
    obtain ⟨a, ha, hxs⟩ := Option.bind_eq_some_iff.mp hxs
    obtain ⟨as', has, hxs⟩ := Option.bind_eq_some_iff.mp hxs
    obtain rfl := Option.some.inj hxs
    obtain ⟨bs, hbs, hperm⟩ := ih has
    refine ⟨a :: bs, ?_, hperm.cons a⟩
    rw [mapM_cons, ha, hbs]
    rfl
  | swap x y xs =>
    simp only [mapM_cons] at hxs
    obtain ⟨b, hb, hxs⟩ := Option.bind_eq_some_iff.mp hxs
    obtain ⟨rest, hrest, hxs⟩ := Option.bind_eq_some_iff.mp hxs
    obtain ⟨a, ha, hrest⟩ := Option.bind_eq_some_iff.mp hrest
    obtain ⟨as', has, hrest⟩ := Option.bind_eq_some_iff.mp hrest
    obtain rfl := Option.some.inj hrest
    obtain rfl := Option.some.inj hxs
    refine ⟨a :: b :: as', ?_, .swap a b as'⟩
    simp only [mapM_cons, ha, hb, has]
    rfl
  | trans _ _ ih₁ ih₂ =>
    obtain ⟨bs, hbs, hperm⟩ := ih₁ hxs
    obtain ⟨cs, hcs, hperm'⟩ := ih₂ hbs
    exact ⟨cs, hcs, hperm.trans hperm'⟩

end

/-- A MERGE; `on` is whether the ON condition is TRUE. -/
structure Merge (ρ σ : Type) where
  source : List σ
  on : ρ → σ → Bool
  matched : List (Clause (ρ × σ) ρ)
  notMatched : List (Clause σ ρ)
  notMatchedBySource : List (Clause ρ ρ)

namespace Merge

variable {ρ σ : Type} (m : Merge ρ σ)

def pairs (target : List ρ) : List (ρ × σ) :=
  target.flatMap fun t => (m.source.filter (m.on t)).map fun s => (t, s)

def bySource (target : List ρ) : List ρ := target.filter fun t => !m.source.any (m.on t)

def toInsert (target : List ρ) : List σ := m.source.filter fun s => !target.any fun t => m.on t s

def onlyDeletes : Bool := m.matched.all fun c => match c.verb with
  | .delete => c.condition.isNone
  | .write _ => false

/-- A target row that more than one pair a MATCHED clause acts on holds. -/
def twice (t : ρ) : Bool := 2 ≤ ((m.pairs [t]).filter (takes m.matched)).length

def ambiguous (target : List ρ) : Bool :=
  !m.matched.isEmpty && !m.onlyDeletes && target.any m.twice

/-- Whether a clause deletes or updates a target row. -/
def acts (t : ρ) : Bool :=
  (m.pairs [t]).any (takes m.matched) || (m.bySource [t]).any (takes m.notMatchedBySource)

/-- Whether a MERGE acts on a target row, or the row matches a source row. -/
def reads (t : ρ) : Bool := m.acts t || m.source.any (m.on t)

/-- The rows a MERGE writes for the target rows given, with the source rows
inserted that match none of the rows seen. -/
def newRows (seen target : List ρ) : Option (List ρ) :=
  if m.ambiguous target then none
  else (written m.matched (m.pairs target) ++
    written m.notMatchedBySource (m.bySource target) ++
    written m.notMatched (m.toInsert seen)).mapM id

variable {m}

theorem pairs_eq (target : List ρ) : m.pairs target = target.flatMap fun t => m.pairs [t] := by
  simp [pairs]

theorem bySource_eq (target : List ρ) :
    m.bySource target = target.flatMap fun t => m.bySource [t] := by
  unfold bySource
  induction target with
  | nil => rfl
  | cons t target ih =>
    rw [filter_cons, flatMap_cons, ← ih, filter_cons, filter_nil]
    split_ifs <;> rfl

theorem filter_flatMap_acts {α : Type} {parts : ρ → List α} {p : α → Bool}
    (h : ∀ t, (parts t).any p = true → m.acts t = true) (target : List ρ) :
    (target.flatMap parts).filter p = ((target.filter m.acts).flatMap parts).filter p := by
  induction target with
  | nil => rfl
  | cons t target ih =>
    rw [flatMap_cons, filter_append, ih, filter_cons]
    cases hacts : m.acts t with
    | true => rw [if_pos rfl, flatMap_cons, filter_append]
    | false =>
      have hnone : (parts t).filter p = [] := by
        rw [filter_eq_nil_iff]
        intro a ha hp
        rw [h t (any_eq_true.mpr ⟨a, ha, hp⟩)] at hacts
        cases hacts
      rw [hnone, nil_append]
      rfl

theorem ambiguous_perm {target more : List ρ}
    (h : (target.filter m.acts).Perm (more.filter m.acts)) :
    m.ambiguous target = m.ambiguous more := by
  have htwice : ∀ xs : List ρ, xs.any m.twice = (xs.filter m.acts).any m.twice := by
    intro xs
    rw [any_filter]
    congr 1
    funext t
    cases ht : m.twice t with
    | false => rw [Bool.and_false]
    | true =>
      have hpos : 0 < ((m.pairs [t]).filter (takes m.matched)).length := by
        have hle := of_decide_eq_true ht
        omega
      obtain ⟨x, hx⟩ := exists_mem_of_length_pos hpos
      obtain ⟨hx, htakes⟩ := mem_filter.mp hx
      have hacts : m.acts t = true := by
        rw [acts, any_eq_true.mpr ⟨x, hx, htakes⟩, Bool.true_or]
      rw [hacts, Bool.true_and]
  unfold ambiguous
  rw [htwice target, htwice more, h.any_eq]

/-- Rows that match no source row, or are seen already, keep no source row from being inserted. -/
theorem toInsert_append {seen more : List ρ}
    (h : ∀ t ∈ more, m.source.any (m.on t) = true → t ∈ seen) :
    m.toInsert (seen ++ more) = m.toInsert seen := by
  refine filter_congr fun s hs => ?_
  rw [any_append]
  cases hseen : seen.any fun t => m.on t s with
  | true => rfl
  | false =>
    rw [any_eq_false] at hseen
    have hmore : (more.any fun t => m.on t s) = false := by
      rw [any_eq_false]
      exact fun t ht hon => hseen t (h t ht (any_eq_true.mpr ⟨s, hs, hon⟩)) hon
    rw [hmore]
    rfl

theorem newRows_perm {seen target more : List ρ}
    (h : (target.filter m.acts).Perm (more.filter m.acts)) {new : List ρ}
    (hnew : m.newRows seen target = some new) :
    ∃ again, m.newRows seen more = some again ∧ new.Perm again := by
  have hpairs : ((m.pairs target).filter (takes m.matched)).Perm
      ((m.pairs more).filter (takes m.matched)) := by
    have hacts : ∀ t, (m.pairs [t]).any (takes m.matched) = true → m.acts t = true := by
      intro t ht
      rw [acts, ht, Bool.true_or]
    rw [pairs_eq, pairs_eq more, filter_flatMap_acts hacts, filter_flatMap_acts hacts more]
    exact (h.flatMap_right _).filter _
  have hbySource : ((m.bySource target).filter (takes m.notMatchedBySource)).Perm
      ((m.bySource more).filter (takes m.notMatchedBySource)) := by
    have hacts : ∀ t, (m.bySource [t]).any (takes m.notMatchedBySource) = true →
        m.acts t = true := by
      intro t ht
      rw [acts, ht, Bool.or_true]
    rw [bySource_eq, bySource_eq more, filter_flatMap_acts hacts, filter_flatMap_acts hacts more]
    exact (h.flatMap_right _).filter _
  unfold newRows at hnew ⊢
  rw [← ambiguous_perm h]
  split_ifs at hnew ⊢
  refine mapM_perm ?_ hnew
  exact ((written_perm hpairs).append (written_perm hbySource)).append (.refl _)

end Merge

open Table Rewrite

section
variable {ρ : Type} (st : Storage (ρ × Bool))

def plain : Storage ρ where
  contents path := (st.contents path).map Prod.fst
  hidden := st.hidden

/-- The live rows no winning blind append wrote, and those one did. -/
def others (log : Log) : List ρ := ((st.rows (files log)).filter fun r => !r.2).map Prod.fst

def aside (log : Log) : List ρ := ((st.rows (files log)).filter fun r => r.2).map Prod.fst

variable {st}

theorem plain_rowsAt (path : Path) (shown : Finset Nat) :
    (plain st).rowsAt path shown = (st.rowsAt path shown).map Prod.fst := by
  unfold Storage.rowsAt plain
  rw [zipIdx_map, filter_map, map_map, map_map]
  rfl

theorem plain_visible (f : AddFile) : (plain st).visible f = st.visible f := by
  have hcount : (plain st).count f.path = st.count f.path := length_map _
  unfold Storage.visible
  rw [hcount]
  rfl

theorem plain_liveRows (f : AddFile) :
    (plain st).liveRows f = (st.liveRows f).map Prod.fst := by
  rw [Storage.liveRows, plain_rowsAt, plain_visible]
  rfl

theorem plain_rows (fs : List AddFile) : (plain st).rows fs = (st.rows fs).map Prod.fst := by
  unfold Storage.rows
  rw [map_flatMap]
  exact flatMap_congr fun f _ => plain_liveRows f

variable (st) in
/-- Nothing concerned left, the rest is what stays of the others, beside the rows aside. -/
theorem filter_concerned (acts : ρ → Bool) (log : Log) :
    (((st.rows (files log)).filter fun r => !concerned acts r).map Prod.fst).Perm
      (((others st log).filter fun r => !acts r) ++ aside st log) := by
  have hsplit := filter_append_perm (fun r : ρ × Bool => !r.2)
    ((st.rows (files log)).filter fun r => !concerned acts r)
  rw [filter_filter, filter_filter] at hsplit
  have hothers : ((st.rows (files log)).filter fun r => !r.2 && !concerned acts r).map Prod.fst =
      (others st log).filter fun r => !acts r := by
    rw [others, filter_map, filter_filter]
    congr 1
    refine filter_congr fun r _ => ?_
    cases hr : r.2 <;> simp [concerned, hr]
  have haside : ((st.rows (files log)).filter fun r => !!r.2 && !concerned acts r).map Prod.fst =
      aside st log := by
    rw [aside]
    congr 1
    refine filter_congr fun r _ => ?_
    cases hr : r.2 <;> simp [concerned, hr]
  have hmap := hsplit.symm.map Prod.fst
  rwa [map_append, hothers, haside] at hmap

theorem others_filter (acts : ρ → Bool) (log : Log) :
    (others st log).filter acts = ((st.rows (files log)).filter (concerned acts)).map Prod.fst := by
  rw [others, filter_map, filter_filter]
  congr 1

/-- No row of a file live in the log is marked. -/
def Unmarked (st : Storage (ρ × Bool)) (log : Log) : Prop :=
  ∀ f ∈ files log, ∀ r ∈ st.contents f.path, r.2 = false

theorem Unmarked.liveRows {log : Log} (h : Unmarked st log) {f : AddFile} (hf : f ∈ files log)
    (acts : ρ → Bool) :
    (st.liveRows f).filter (concerned acts) = (st.liveRows f).filter fun r => acts r.1 := by
  refine filter_congr fun r hr => ?_
  rw [concerned, h f hf r (rowsAt_contents hr), Bool.not_false, Bool.and_true]

theorem Unmarked.rows {log : Log} (h : Unmarked st log) (acts : ρ → Bool) :
    ((plain st).rows (files log)).filter acts =
      ((st.rows (files log)).filter (concerned acts)).map Prod.fst := by
  rw [plain_rows, filter_map]
  congr 1
  unfold Storage.rows
  rw [filter_flatMap, filter_flatMap]
  exact flatMap_congr fun f hf => (h.liveRows hf acts).symm

end

section
variable {ν : Type} {st : Storage (Row ν × Bool)} {acts : Row ν → Bool} {touched : List Path}
  {origin log : Log}

theorem vectorOf_of_mem (hvalid : st.Valid log) {f : AddFile} (hf : f ∈ files log) :
    vectorOf log f.path = some f.deletionVector := by
  have hall : ∀ g ∈ (files log).filter fun g => g.path = f.path, g = f := by
    intro g hg
    obtain ⟨hg, hpath⟩ := mem_filter.mp hg
    exact inj_on_of_nodup_map hvalid.nodup hg hf (of_decide_eq_true hpath)
  have hne : ((files log).filter fun g => g.path = f.path) ≠ [] :=
    ne_nil_of_mem (mem_filter.mpr ⟨hf, decide_eq_true rfl⟩)
  rw [vectorOf, List.getLast?_eq_some_getLast hne, hall _ (getLast_mem hne)]
  rfl

theorem mem_of_vectorOf {path : Path} {vector : Option DeletionVector}
    (h : vectorOf log path = some vector) :
    ∃ f ∈ files log, f.path = path ∧ f.deletionVector = vector := by
  obtain ⟨f, hf, hvector⟩ := Option.map_eq_some_iff.mp h
  obtain ⟨hf, hpath⟩ := mem_filter.mp (mem_of_getLast? hf)
  exact ⟨f, hf, of_decide_eq_true hpath, hvector⟩

theorem Covered.same (h : Covered st acts touched origin log) (hvalid : st.Valid log)
    {f : AddFile} (hf : f ∈ files log) (htouched : f.path ∈ touched) :
    ∃ f₀ ∈ files origin, f₀.path = f.path ∧ f₀.deletionVector = f.deletionVector := by
  have hsame := (h.vectors f.path htouched).2
  rw [vectorOf_of_mem hvalid hf] at hsame
  exact mem_of_vectorOf hsame

theorem Covered.touched_perm (h : Covered st acts touched origin log) (horigin : st.Valid origin)
    (hvalid : st.Valid log) : (((files origin).filter fun f => f.path ∈ touched).map
      fun f => (f.path, f.deletionVector)).Perm
      (((files log).filter fun f => f.path ∈ touched).map
        fun f => (f.path, f.deletionVector)) := by
  have hnodup : ∀ l : Log, st.Valid l → (((files l).filter fun f => f.path ∈ touched).map
      fun f => (f.path, f.deletionVector)).Nodup := by
    intro l hl
    have hpaths := hl.nodup.sublist ((filter_sublist (p := fun f : AddFile =>
      decide (f.path ∈ touched))).map AddFile.path)
    refine List.Nodup.of_map Prod.fst ?_
    rwa [map_map]
  have hmem : ∀ l : Log, st.Valid l → ∀ x : Path × Option DeletionVector,
      x ∈ ((files l).filter fun f => f.path ∈ touched).map
        (fun f => (f.path, f.deletionVector)) ↔ x.1 ∈ touched ∧ vectorOf l x.1 = some x.2 := by
    intro l hl x
    constructor
    · intro hx
      obtain ⟨f, hf, rfl⟩ := mem_map.mp hx
      obtain ⟨hf, htouched⟩ := mem_filter.mp hf
      exact ⟨of_decide_eq_true htouched, vectorOf_of_mem hl hf⟩
    · rintro ⟨htouched, hvector⟩
      obtain ⟨f, hf, hpath, hsame⟩ := mem_of_vectorOf hvector
      refine mem_map.mpr ⟨f, mem_filter.mpr ⟨hf, ?_⟩, ?_⟩
      · rw [hpath]
        exact decide_eq_true htouched
      · rw [hpath, hsame]
  rw [perm_ext_iff_of_nodup (hnodup origin horigin) (hnodup log hvalid)]
  intro x
  rw [hmem origin horigin, hmem log hvalid]
  constructor
  · rintro ⟨htouched, hvector⟩
    exact ⟨htouched, (h.vectors x.1 htouched).2.symm.trans hvector⟩
  · rintro ⟨htouched, hvector⟩
    exact ⟨htouched, (h.vectors x.1 htouched).2.trans hvector⟩

theorem Covered.touched_rows (h : Covered st acts touched origin log) (horigin : st.Valid origin)
    (hvalid : st.Valid log) (p : Row ν × Bool → Bool) :
    (((files origin).filter fun f => f.path ∈ touched).flatMap fun f =>
      (st.liveRows f).filter p).Perm
      (((files log).filter fun f => f.path ∈ touched).flatMap fun f =>
        (st.liveRows f).filter p) := by
  have hrows : ∀ fs : List AddFile, (fs.flatMap fun f => (st.liveRows f).filter p) =
      (fs.map fun f => (f.path, f.deletionVector)).flatMap fun x =>
        (st.rowsAt x.1 (Finset.range (st.count x.1) \ (x.2.map st.hidden).getD ∅)).filter p := by
    intro fs
    rw [flatMap_map]
    rfl
  rw [hrows, hrows]
  exact (h.touched_perm horigin hvalid).flatMap_right _

theorem Covered.split (h : Covered st acts touched origin log) :
    (st.rows (files log)).filter (concerned acts) =
        (((files log).filter fun f => f.path ∈ touched).flatMap fun f =>
          (st.liveRows f).filter (concerned acts)) ∧
      ((st.rows (files log)).filter fun r => !concerned acts r).Perm
        (st.rows ((files log).filter fun f => f.path ∉ touched) ++
          ((files log).filter fun f => f.path ∈ touched).flatMap fun f =>
            (st.liveRows f).filter fun r => !concerned acts r) := by
  have hnone : ∀ f ∈ files log, f.path ∉ touched → ∀ r ∈ st.liveRows f,
      concerned acts r = false := by
    intro f hf hnot r hr
    rw [← Bool.not_eq_true]
    exact fun hconcerned => hnot (h.rows f hf r hr hconcerned)
  have hperm := filter_append_perm (fun f : AddFile => decide (f.path ∉ touched)) (files log)
  unfold Storage.rows
  constructor
  · rw [filter_flatMap]
    clear hperm
    generalize files log = fs at hnone
    induction fs with
    | nil => rfl
    | cons f fs ih =>
      have htail := ih fun g hg => hnone g (mem_cons_of_mem f hg)
      rw [flatMap_cons, htail, filter_cons]
      by_cases htouched : f.path ∈ touched
      · rw [if_pos (decide_eq_true htouched), flatMap_cons]
      · have hfile : (st.liveRows f).filter (concerned acts) = [] := by
          rw [filter_eq_nil_iff]
          intro r hr
          rw [hnone f mem_cons_self htouched r hr]
          exact Bool.false_ne_true
        rw [hfile, nil_append, if_neg (by simpa using htouched)]
  · rw [filter_flatMap]
    have huntouched : (((files log).filter fun f => f.path ∉ touched).flatMap st.liveRows) =
        ((files log).filter fun f => f.path ∉ touched).flatMap fun f =>
          (st.liveRows f).filter fun r => !concerned acts r := by
      refine flatMap_congr fun f hf => ?_
      obtain ⟨hf, hnot⟩ := mem_filter.mp hf
      refine (filter_eq_self.mpr fun r hr => ?_).symm
      rw [hnone f hf (of_decide_eq_true hnot) r hr, Bool.not_false]
    rw [huntouched, ← flatMap_append]
    refine List.Perm.flatMap_right _ ?_
    simpa using hperm.symm

theorem Covered.concerned_perm (h : Covered st acts touched origin log)
    (hstart : Covered st acts touched origin origin) (horigin : st.Valid origin)
    (hvalid : st.Valid log) : ((st.rows (files origin)).filter (concerned acts)).Perm
      ((st.rows (files log)).filter (concerned acts)) := by
  rw [hstart.split.1, h.split.1]
  exact h.touched_rows horigin hvalid _

end

/-- A DELETE, UPDATE, replaceWhere or MERGE. -/
inductive Command (τ ν L σ : Type) where
  | plain (statement : Statement τ ν L)
  | merge (m : Merge (Row ν) σ)

namespace Command

variable {τ ν L σ : Type}

/-- The rows a statement deletes or replaces. -/
def acts : Command τ ν L σ → Row ν → Bool
  | .plain statement => statement.matches
  | .merge m => m.acts

/-- The rows a statement depends on. -/
def reads : Command τ ν L σ → Row ν → Bool
  | .plain statement => statement.matches
  | .merge m => m.reads

theorem reads_of_acts (command : Command τ ν L σ) (r : Row ν) (h : command.acts r = true) :
    command.reads r = true := by
  cases command with
  | plain statement => exact h
  | merge m =>
    change (m.acts r || _) = true
    rw [show m.acts r = true from h, Bool.true_or]

variable [DecidableEq τ] [DecidableEq ν] (engine : Engine τ ν L) (schema : List (Column τ))

/-- The rows a statement writes, where a MERGE inserts for the rows seen. -/
def newRows (seen rows : List (Row ν)) : Command τ ν L σ → Option (List (Row ν))
  | .plain statement => Rewrite.newRows engine schema rows statement
  | .merge m => m.newRows seen rows

/-- What a statement leaves of the rows of a table. -/
def run (seen rows : List (Row ν)) (command : Command τ ν L σ) : Option (Multiset (Row ν)) :=
  (command.newRows engine schema seen rows).map fun new =>
    (rows.filter fun r => !command.acts r : List (Row ν)) + (new : Multiset (Row ν))

/-- What `_dv_dml` or `execute` of a MERGE asks of `commit_dml`: none where it
fails, nothing where nothing is committed. -/
def staged {st : Storage (Row ν)} (c : Contents st) :
    Command τ ν L σ → Option (Option (Asked ν))
  | .plain statement => dvDml engine schema c statement
  | .merge m => (m.newRows (st.rows (files c.log)) (st.rows (files c.log))).map fun new =>
    if matchedRows c m.acts = [] ∧ new = [] then none else some (asked c m.acts (dataOf new))

variable {engine schema}

theorem newRows_perm {command : Command τ ν L σ} {seen rows more : List (Row ν)}
    (h : (rows.filter command.acts).Perm (more.filter command.acts)) {new : List (Row ν)}
    (hnew : command.newRows engine schema seen rows = some new) :
    ∃ again, command.newRows engine schema seen more = some again ∧ new.Perm again := by
  cases command with
  | plain statement => exact Rewrite.newRows_perm h hnew
  | merge m => exact Merge.newRows_perm h hnew

/-- Rows the statement does not depend on, or has seen already, change nothing of what it writes. -/
theorem newRows_append {command : Command τ ν L σ} {seen more rows : List (Row ν)}
    (h : ∀ t ∈ more, command.reads t = true → t ∈ seen) :
    command.newRows engine schema (seen ++ more) rows =
      command.newRows engine schema seen rows := by
  cases command with
  | plain statement => rfl
  | merge m =>
    have hinsert : m.toInsert (seen ++ more) = m.toInsert seen := by
      refine Merge.toInsert_append fun t ht hany => h t ht ?_
      change (m.acts t || m.source.any (m.on t)) = true
      rw [hany, Bool.or_true]
    change m.newRows (seen ++ more) rows = m.newRows seen rows
    rw [Merge.newRows, Merge.newRows, hinsert]

/-- What is staged: the rows acted on with the rows written, or every file of a DELETE. -/
theorem staged_eq {st : Storage (Row ν)} {c : Contents st} {command : Command τ ν L σ}
    {a : Asked ν} (h : command.staged engine schema c = some (some a)) :
    (∃ new, command.newRows engine schema (st.rows (files c.log)) (st.rows (files c.log)) =
      some new ∧ a = asked c command.acts (dataOf new)) ∨
    (command = .plain (.delete none) ∧ ∃ live, a = everyFile c live) := by
  cases command with
  | merge m =>
    obtain ⟨new, hnew, hplan⟩ := Option.map_eq_some_iff.mp h
    split_ifs at hplan
    exact .inl ⟨new, hnew, (Option.some.inj hplan).symm⟩
  | plain statement =>
    by_cases hall : statement = .delete none ∧ deleteEveryFile c ≠ none
    · obtain ⟨rfl, hfast⟩ := hall
      obtain ⟨plan, hplan⟩ := Option.ne_none_iff_exists'.mp hfast
      change (deleteEveryFile c).or _ = _ at h
      rw [hplan, Option.some_or, Option.some_inj] at h
      obtain ⟨live, -, hlive⟩ := Option.map_eq_some_iff.mp hplan
      rw [h] at hlive
      split_ifs at hlive
      exact .inr ⟨rfl, live, (Option.some.inj hlive).symm⟩
    · change dvDml engine schema c statement = _ at h
      rw [dvDml_eq statement fun hdelete => by
        by_contra hne
        exact hall ⟨hdelete, hne⟩] at h
      obtain ⟨new, hnew, hplan⟩ := Option.map_eq_some_iff.mp h
      split_ifs at hplan
      exact .inl ⟨new, hnew, (Option.some.inj hplan).symm⟩

end Command

end DeltaSwamp.Conflict
