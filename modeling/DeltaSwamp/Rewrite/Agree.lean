import DeltaSwamp.Rewrite.Left

/-!
# When the three paths agree

A statement row by row, and each of the paths against it. The rows a statement
keeps are what the paths that write them again may stumble over.
-/

namespace DeltaSwamp.Rewrite

open Table List

section
variable {τ ν L : Type} [DecidableEq τ] [DecidableEq ν] (engine : Engine τ ν L)
  (schema : List (Column τ)) (admits : Row ν → Bool)

/-- The rows a statement writes anew; none where it cannot compute them. -/
def newRows (rows : List (Row ν)) : Statement τ ν L → Option (List (Row ν))
  | .delete _ => some []
  | .update p assignments =>
    if rows.filter (isTrue p) = [] then some []
    else if storable engine schema assignments (rows.filter (isTrue p)) then
      some ((rows.filter (isTrue p)).map (updateRow engine schema assignments))
    else none
  | .replaceWhere p data => replacing engine schema p data

/-- What a statement is to do: the rows affected and the rows left. -/
def outcome (rows : List (Row ν)) (statement : Statement τ ν L) :
    Option (Nat × Multiset (Row ν)) :=
  (newRows engine schema rows statement).bind fun new =>
    if rows.filter statement.matches = [] ∧ new = [] then some (0, rows)
    else committed admits rows statement.matches new

/-- Whether the SET list can be stored for every row it is computed over. -/
def setStorable (rows : List (Row ν)) : Statement τ ν L → Bool
  | .update p assignments =>
    storable engine schema assignments (seenRows (isTrue p) assignments rows)
  | _ => true

variable {engine schema admits}

theorem nil_of_perm {α : Type} {xs ys : List α} (h : xs.Perm ys) : xs = [] ↔ ys = [] := by
  rw [← length_eq_zero_iff, ← length_eq_zero_iff, h.length_eq]

variable {rows more : List (Row ν)}

theorem storable_perm {assignments : SetList L} (h : rows.Perm more) :
    storable engine schema assignments rows = storable engine schema assignments more := by
  rw [Bool.eq_iff_iff]
  exact ⟨fun hs => storable_mono hs h.symm.subset, fun hs => storable_mono hs h.subset⟩

theorem newRows_perm {statement : Statement τ ν L}
    (h : (rows.filter statement.matches).Perm (more.filter statement.matches)) {new : List (Row ν)}
    (hnew : newRows engine schema rows statement = some new) :
    ∃ again, newRows engine schema more statement = some again ∧ new.Perm again := by
  cases statement with
  | delete p => exact ⟨new, hnew, .refl new⟩
  | replaceWhere p data => exact ⟨new, hnew, .refl new⟩
  | update p assignments =>
    have hmatched : (rows.filter (isTrue p)).Perm (more.filter (isTrue p)) := h
    have hnil := nil_of_perm hmatched
    dsimp only [newRows] at hnew ⊢
    simp only [← hnil, ← storable_perm hmatched]
    split_ifs at hnew ⊢
    · exact ⟨[], rfl, Option.some.inj hnew ▸ .refl _⟩
    · exact ⟨_, rfl, Option.some.inj hnew ▸ hmatched.map _⟩

theorem outcome_perm (h : rows.Perm more) (statement : Statement τ ν L) :
    outcome engine schema admits rows statement = outcome engine schema admits more statement := by
  have hmatched := h.filter statement.matches
  have hnil := nil_of_perm hmatched
  have hkept : ((rows.filter fun r => !statement.matches r : List (Row ν)) : Multiset (Row ν)) =
      (more.filter fun r => !statement.matches r : List (Row ν)) :=
    Multiset.coe_eq_coe.mpr (h.filter _)
  have hrows : (rows : Multiset (Row ν)) = more := Multiset.coe_eq_coe.mpr h
  unfold outcome committed
  cases hnew : newRows engine schema rows statement with
  | none =>
    cases hagain : newRows engine schema more statement with
    | none => rfl
    | some again =>
      obtain ⟨new, hsome, -⟩ := newRows_perm (h.symm.filter _) hagain
      rw [hnew] at hsome
      cases hsome
  | some new =>
    obtain ⟨again, hagain, hperm⟩ := newRows_perm (h.filter _) hnew
    have hempty := nil_of_perm hperm
    have hadmits : new.all admits = again.all admits := hperm.all_eq
    have hbag : (new : Multiset (Row ν)) = again := Multiset.coe_eq_coe.mpr hperm
    simp only [hagain, Option.bind_some, hnil, hempty, hadmits, hkept, hbag, hmatched.length_eq,
      hrows]

end

section
variable {τ ν L : Type} [DecidableEq τ] [DecidableEq ν] {engine : Engine τ ν L}
  {schema : List (Column τ)} {st : Storage (Row ν)} {c : Contents st}

/-- A statement planned from the rows it matches and those it writes. -/
def planned (c : Contents st) (engine : Engine τ ν L) (schema : List (Column τ))
    (statement : Statement τ ν L) : Option (Option (Asked ν)) :=
  (newRows engine schema (st.rows (files c.log)) statement).map fun new =>
    if (st.rows (files c.log)).filter statement.matches = [] ∧ new = [] then none
    else some (asked c statement.matches (dataOf new))

theorem deleting_eq (p : Option (Row ν → Option Bool)) :
    some (deleting c (isTrue p)) = planned c engine schema (.delete p : Statement τ ν L) := by
  rw [planned, newRows, Option.map_some, deleting, matchedRows_eq]
  simp [Statement.matches, dataOf]

theorem dvDml_eq (statement : Statement τ ν L)
    (h : statement = .delete none → deleteEveryFile c = none) :
    dvDml engine schema c statement = planned c engine schema statement := by
  cases statement with
  | delete p =>
    cases p with
    | none =>
      rw [dvDml, h rfl, Option.none_or]
      exact deleting_eq none
    | some p => exact deleting_eq (some p)
  | replaceWhere p data =>
    dsimp only [dvDml, planned]
    rw [matchedRows_eq]
    rfl
  | update p assignments =>
    dsimp only [dvDml, planned, newRows]
    rw [assign_eq, matchedRows_eq]
    change _ = Option.map (fun new => if (st.rows (files c.log)).filter (isTrue p) = [] ∧ new = []
      then none else some (asked c (isTrue p) (dataOf new))) _
    by_cases hnone : (st.rows (files c.log)).filter (isTrue p) = []
    · simp [hnone]
    · have hfst : (((st.rows (files c.log)).filter (isTrue p)).map fun r => (r, false)).map
          Prod.fst = (st.rows (files c.log)).filter (isTrue p) := by
        rw [map_map]
        exact map_id _
      rw [if_neg hnone, if_neg hnone, hfst]
      by_cases hstorable : storable engine schema assignments
          ((st.rows (files c.log)).filter (isTrue p)) = true
      · have hupdated : updatedBy (updateRow engine schema assignments)
            (((st.rows (files c.log)).filter (isTrue p)).map fun r => (r, false)) =
            ((st.rows (files c.log)).filter (isTrue p)).map
              (updateRow engine schema assignments) := by
          rw [updatedBy, map_map]
          rfl
        have hne : ((st.rows (files c.log)).filter (isTrue p)).map
            (updateRow engine schema assignments) ≠ [] := by
          rw [ne_eq, map_eq_nil_iff]
          exact hnone
        rw [if_pos hstorable, if_pos hstorable, Option.map_some, Option.map_some, hupdated,
          if_neg (fun h => hnone h.1), dataOf, if_neg hne]
      · rw [if_neg hstorable, if_neg hstorable]
        rfl

variable {admits : Row ν → Bool}

theorem byDml_everyFile {dvPath : Bool} {plan : Option (Asked ν)}
    (h : deleteEveryFile c = some plan) :
    byDml engine schema admits c dvPath (.delete none : Statement τ ν L) =
        outcome engine schema admits (st.rows (files c.log)) (.delete none : Statement τ ν L) ↔
      (st.rows (files c.log) ≠ [] → (st.scan c.log c.valid.nodup).deletionVectors = true ∨
        (st.scan c.log c.valid.nodup).allowRemove = true) := by
  have hall : (st.rows (files c.log)).filter (fun _ => true) = st.rows (files c.log) :=
    filter_eq_self.mpr fun _ _ => rfl
  have hnone : (st.rows (files c.log)).filter (fun _ => false) = [] :=
    filter_eq_nil_iff.mpr fun _ _ => Bool.false_ne_true
  have houtcome : outcome engine schema admits (st.rows (files c.log))
      (.delete none : Statement τ ν L) =
      if st.rows (files c.log) = [] then some (0, (st.rows (files c.log) : Multiset (Row ν)))
      else some ((st.rows (files c.log)).length, 0) := by
    change (if (st.rows (files c.log)).filter (fun _ => true) = [] ∧ _ then _ else
      committed admits _ (fun _ => true) []) = _
    simp [committed, hall, hnone]
  obtain ⟨live, hlive, rfl⟩ := Option.map_eq_some_iff.mp h
  have hcount := liveCount_eq hlive c.valid.describes c.counted
  have hplan : byDml engine schema admits c dvPath (.delete none : Statement τ ν L) =
      (if live = 0 then none else some (everyFile c live)).elim (some (0, st.bag (files c.log)))
        (commitDvChanges admits c dvPath) := by
    unfold byDml dvDml
    rw [h]
    rfl
  rw [hplan, houtcome]
  by_cases hempty : st.rows (files c.log) = []
  · have hzero : live = 0 := by rw [hcount, hempty]; rfl
    simp [hzero, hempty, Storage.bag]
  · have hpos : live ≠ 0 := by
      rw [hcount]
      simpa using hempty
    obtain ⟨hmade, hrefused⟩ : (_ → commitDvChanges admits c dvPath (everyFile c live) = _) ∧
        (_ → commitDvChanges admits c dvPath (everyFile c live) = _) := commit_everyFile hempty
    rw [if_neg hpos, if_neg hempty, Option.elim_some]
    by_cases hok : (st.scan c.log c.valid.nodup).deletionVectors = true ∨
        (st.scan c.log c.valid.nodup).allowRemove = true
    · rw [hmade hok, hcount]
      simp [hok]
    · rw [hrefused hok]
      simp [hok, hempty]

theorem byDml_planned {dvPath : Bool} {statement : Statement τ ν L}
    (h : statement = .delete none → deleteEveryFile c = none) :
    byDml engine schema admits c dvPath statement =
      (newRows engine schema (st.rows (files c.log)) statement).bind fun new =>
        if (st.rows (files c.log)).filter statement.matches = [] ∧ new = [] then
          some (0, (st.rows (files c.log) : Multiset (Row ν)))
        else commitDvChanges admits c dvPath (asked c statement.matches (dataOf new)) := by
  unfold byDml
  rw [dvDml_eq statement h, planned, Option.bind_map]
  congr 1
  funext new
  dsimp only [Function.comp_apply]
  split_ifs
  · rfl
  · rfl

theorem byDml_vectors (hvectors : (st.scan c.log c.valid.nodup).deletionVectors = true)
    (statement : Statement τ ν L) : byDml engine schema admits c true statement =
      outcome engine schema admits (st.rows (files c.log)) statement := by
  have hslow : (statement = .delete none → deleteEveryFile c = none) →
      byDml engine schema admits c true statement =
        outcome engine schema admits (st.rows (files c.log)) statement := by
    intro h
    rw [byDml_planned h]
    unfold outcome
    congr 1
    funext new
    rw [commit_vectors new (.inl rfl) (.inl hvectors)]
  cases hfast : deleteEveryFile c with
  | none => exact hslow fun _ => hfast
  | some plan =>
    by_cases hall : statement = .delete none
    · rw [hall]
      exact (byDml_everyFile hfast).mpr fun _ => .inl hvectors
    · exact hslow fun h => absurd h hall

theorem bind_eq_bind_iff {α β : Type} {x : Option α} {f g : α → Option β} :
    x.bind f = x.bind g ↔ ∀ a, x = some a → f a = g a := by
  cases x with
  | none => simp
  | some a => simp

/-- Rewriting files agrees exactly where it may remove, admits all rows and keeps keys apart. -/
theorem byDml_rewrites_iff (hvectors : (st.scan c.log c.valid.nodup).deletionVectors = false)
    (statement : Statement τ ν L) :
    byDml engine schema admits c false statement =
        outcome engine schema admits (st.rows (files c.log)) statement ↔
      ∀ new, newRows engine schema (st.rows (files c.log)) statement = some new →
        new.all admits = true → (st.rows (files c.log)).filter statement.matches ≠ [] →
          (st.scan c.log c.valid.nodup).allowRemove = true ∧
          (readBack c (deletions c statement.matches)).all admits = true ∧
          Apart c statement.matches := by
  have hslow : (statement = .delete none → deleteEveryFile c = none) →
      (byDml engine schema admits c false statement =
        outcome engine schema admits (st.rows (files c.log)) statement ↔
      ∀ new, newRows engine schema (st.rows (files c.log)) statement = some new →
        new.all admits = true → (st.rows (files c.log)).filter statement.matches ≠ [] →
          (st.scan c.log c.valid.nodup).allowRemove = true ∧
          (readBack c (deletions c statement.matches)).all admits = true ∧
          Apart c statement.matches) := by
    intro h
    rw [byDml_planned h, outcome, bind_eq_bind_iff]
    refine forall₂_congr fun new _ => ?_
    by_cases hmatched : (st.rows (files c.log)).filter statement.matches = []
    · rw [commit_vectors new (.inr hmatched) (.inr hmatched)]
      simp [hmatched]
    · rw [if_neg fun hnone => hmatched hnone.1, if_neg fun hnone => hmatched hnone.1,
        commit_rewrites_iff new hmatched hvectors]
      simp [hmatched]
  cases hfast : deleteEveryFile c with
  | none => exact hslow fun _ => hfast
  | some plan =>
    by_cases hall : statement = .delete none
    · subst hall
      have hevery : (st.rows (files c.log)).filter
          (Statement.delete none : Statement τ ν L).matches = st.rows (files c.log) :=
        filter_eq_self.mpr fun _ _ => rfl
      have hkept : readBack c (deletions c (Statement.delete none : Statement τ ν L).matches) =
          [] := by
        rw [eq_nil_iff_forall_not_mem]
        intro r hr
        cases (mem_filter.mp (readBack_subset c _ hr)).2
      have hapart : Apart c (Statement.delete none : Statement τ ν L).matches := by
        refine (readBack_perm_iff c _).mp ?_
        have hnil : (((files c.log).filter fun f => f.path ∈ touchedPaths (deletions c
            (Statement.delete none : Statement τ ν L).matches)).flatMap fun f =>
            (st.liveRows f).filter fun r =>
              !(Statement.delete none : Statement τ ν L).matches r) = [] := by
          rw [flatMap_eq_nil_iff]
          intro f _
          exact filter_eq_nil_iff.mpr fun _ _ => Bool.false_ne_true
        rw [hkept, hnil]
      rw [byDml_everyFile hfast, hevery, hkept, hvectors]
      simp [newRows, hapart]
    · exact hslow fun h => absurd h hall

variable (engine schema) in
theorem transformed_update (rows : List (Row ν)) (p : Option (Row ν → Option Bool))
    (assignments : SetList L) :
    ∃ replacement : List (Row ν),
      replacement.Perm ((rows.filter fun r => !isTrue p r) ++
        (rows.filter (isTrue p)).map (updateRow engine schema assignments)) ∧
      transformed engine schema rows (.update p assignments) =
        if storable engine schema assignments (seenRows (isTrue p) assignments rows) then
          some replacement else none := by
  unfold transformed seenRows
  dsimp only
  rw [assign_eq, assign_eq]
  have hmatched : ((rows.filter (isTrue p)).map fun r => (r, false)).map Prod.fst =
      rows.filter (isTrue p) := by
    rw [map_map]
    exact map_id _
  have hrows : (rows.map fun r => (r, !isTrue p r)).map Prod.fst = rows := by
    rw [map_map]
    exact map_id _
  rw [hmatched, hrows]
  by_cases hcomputed : (assignments.any fun a => isComputed a.2) = true
  · refine ⟨_, .refl _, ?_⟩
    have hall : updatedBy (updateRow engine schema assignments)
        ((rows.filter (isTrue p)).map fun r => (r, false)) =
          (rows.filter (isTrue p)).map (updateRow engine schema assignments) := by
      rw [updatedBy, map_map]
      rfl
    rw [if_pos hcomputed, if_pos hcomputed, hall]
    split_ifs
    · rfl
    · rfl
  · refine ⟨updatedBy (updateRow engine schema assignments) (rows.map fun r => (r, !isTrue p r)),
      ?_, ?_⟩
    · have hsplit := (filter_append_perm (fun r => !isTrue p r) rows).symm.map
        fun r => if isTrue p r then updateRow engine schema assignments r else r
      have hkept : (rows.filter fun r => !isTrue p r).map
          (fun r => if isTrue p r then updateRow engine schema assignments r else r) =
            rows.filter fun r => !isTrue p r := by
        refine (map_congr_left fun r hr => ?_).trans (map_id _)
        have hnot : isTrue p r = false := by simpa using (mem_filter.mp hr).2
        rw [hnot]
        rfl
      have hnew : (rows.filter (isTrue p)).map
          (fun r => if isTrue p r then updateRow engine schema assignments r else r) =
            (rows.filter (isTrue p)).map (updateRow engine schema assignments) := by
        refine map_congr_left fun r hr => ?_
        rw [if_pos (mem_filter.mp hr).2]
      have hall : updatedBy (updateRow engine schema assignments)
          (rows.map fun r => (r, !isTrue p r)) =
            rows.map fun r => if isTrue p r then updateRow engine schema assignments r else r := by
        rw [updatedBy, map_map]
        refine map_congr_left fun r _ => ?_
        cases hr : isTrue p r <;> simp [hr]
      simp only [Bool.not_not] at hsplit
      rw [map_append, hkept, hnew] at hsplit
      rwa [hall]
    · rw [if_neg hcomputed, if_neg hcomputed]

/-- By a rewritten table: the SET list has to be stored for every row it is
computed over, and the rows kept have to be admitted. -/
theorem byTable_iff (statement : Statement τ ν L) :
    byTable engine schema admits c statement =
        outcome engine schema admits (st.rows (files c.log)) statement ↔
      ∀ new, newRows engine schema (st.rows (files c.log)) statement = some new →
        new.all admits = true →
          setStorable engine schema (st.rows (files c.log)) statement = true ∧
          (¬ ((st.rows (files c.log)).filter statement.matches = [] ∧ new = []) →
            ((st.rows (files c.log)).filter fun r => !statement.matches r).all admits = true) := by
  generalize hrows : st.rows (files c.log) = rows
  have hbody : ∀ new : List (Row ν),
      ((if rows.filter statement.matches = [] ∧ new = [] then some (0, (rows : Multiset (Row ν)))
        else if (rows.filter fun r => !statement.matches r).all admits then
          committed admits rows statement.matches new else none) =
        if rows.filter statement.matches = [] ∧ new = [] then some (0, (rows : Multiset (Row ν)))
        else committed admits rows statement.matches new) ↔
      (new.all admits = true → ¬ (rows.filter statement.matches = [] ∧ new = []) →
        (rows.filter fun r => !statement.matches r).all admits = true) := by
    intro new
    by_cases hnone : rows.filter statement.matches = [] ∧ new = []
    · simp [hnone]
    · rw [if_neg hnone, if_neg hnone]
      by_cases hkept : ((rows.filter fun r => !statement.matches r).all admits) = true
      · simp [hkept]
      · rw [if_neg hkept, committed]
        by_cases hnew : new.all admits = true
        · rw [if_pos hnew]
          simp only [reduceCtorEq, false_iff]
          exact fun h => hkept (h hnew hnone)
        · simp [hnew]
  have hplain : (∀ p assignments, statement ≠ .update p assignments) →
      transformed engine schema rows statement =
        (newRows engine schema rows statement).map
          fun new => (rows.filter fun r => !statement.matches r) ++ new := by
    intro hnot
    cases statement with
    | delete p =>
      change some (rows.filter fun r => !isTrue p r) =
        some ((rows.filter fun r => !isTrue p r) ++ [])
      rw [append_nil]
    | update p assignments => exact absurd rfl (hnot p assignments)
    | replaceWhere p data => rfl
  have htable : byTable engine schema admits c statement =
      (transformed engine schema rows statement).bind fun replacement =>
        if (rows.filter statement.matches).length = 0 ∧ replacement.length = rows.length then
          some (0, (rows : Multiset (Row ν)))
        else if replacement.all admits then
          some ((rows.filter statement.matches).length, (replacement : Multiset (Row ν)))
        else none := by
    subst hrows
    rfl
  rw [htable, outcome]
  by_cases hupdate : ∃ p assignments, statement = .update p assignments
  · obtain ⟨p, assignments, rfl⟩ := hupdate
    obtain ⟨replacement, hperm, htransformed⟩ :=
      transformed_update engine schema rows p assignments
    have hmatches : (Statement.update p assignments : Statement τ ν L).matches = isTrue p := rfl
    rw [hmatches] at hbody ⊢
    rw [htransformed]
    by_cases hseen : storable engine schema assignments
        (seenRows (isTrue p) assignments rows) = true
    · have hsub : rows.filter (isTrue p) ⊆ seenRows (isTrue p) assignments rows := by
        unfold seenRows
        split_ifs
        · exact List.Subset.refl _
        · exact filter_subset_self _
      have hnew : newRows engine schema rows (.update p assignments) =
          some ((rows.filter (isTrue p)).map (updateRow engine schema assignments)) := by
        dsimp only [newRows]
        rw [if_pos (storable_mono hseen hsub)]
        split_ifs with hnone
        · rw [hnone, map_nil]
        · rfl
      rw [if_pos hseen, hnew, Option.bind_some, Option.bind_some, commit_table hperm, hbody]
      constructor
      · rintro h new hsome hall
        obtain rfl := Option.some.inj hsome
        exact ⟨hseen, h hall⟩
      · intro h hall
        exact (h _ rfl hall).2
    · rw [if_neg hseen, Option.bind_none]
      have hcannot : ¬ setStorable engine schema rows (.update p assignments) = true := hseen
      dsimp only [newRows]
      by_cases hnone : rows.filter (isTrue p) = []
      · simp [hnone, hcannot]
      · by_cases hstorable : storable engine schema assignments (rows.filter (isTrue p)) = true
        · rw [if_neg hnone, if_pos hstorable, Option.bind_some, if_neg fun h => hnone h.1,
            committed]
          by_cases hall : ((rows.filter (isTrue p)).map
              (updateRow engine schema assignments)).all admits = true
          · rw [if_pos hall]
            simp only [reduceCtorEq, false_iff]
            exact fun h => hcannot (h _ rfl hall).1
          · rw [if_neg hall]
            simp only [true_iff]
            intro new hsome hnew
            obtain rfl := Option.some.inj hsome
            exact absurd hnew hall
        · simp [hnone, hstorable]
  · rw [not_exists] at hupdate
    have hset : setStorable engine schema rows statement = true := by
      cases statement with
      | update p assignments => exact absurd ⟨assignments, rfl⟩ (hupdate p)
      | delete p => rfl
      | replaceWhere p data => rfl
    rw [hplain fun p assignments h => hupdate p ⟨assignments, h⟩, Option.bind_map, bind_eq_bind_iff]
    refine forall₂_congr fun new _ => ?_
    rw [Function.comp_apply, commit_table (.refl _), hbody]
    constructor
    · intro h hnew
      exact ⟨hset, h hnew⟩
    · intro h hnew
      exact (h hnew).2

end

section
variable {τ ν L : Type} [DecidableEq τ] [DecidableEq ν] (engine : Engine τ ν L)
  (schema : List (Column τ)) (admits : Row ν → Bool) {st : Storage (Row ν)}

/-- What a statement leaves alone does not keep it from writing the rows `new`:
the SET list can be stored for every row it is computed over, the rows kept are
admitted, and on the table whose files are rewritten files can be removed and
no row kept has the packed key of one that goes. -/
structure Undisturbed (c : Contents st) (statement : Statement τ ν L) (new : List (Row ν)) :
    Prop where
  stored : setStorable engine schema (st.rows (files c.log)) statement = true
  kept : ¬ ((st.rows (files c.log)).filter statement.matches = [] ∧ new = []) →
    ((st.rows (files c.log)).filter fun r => !statement.matches r).all admits = true
  removable : (st.rows (files c.log)).filter statement.matches ≠ [] →
    (st.scan c.log c.valid.nodup).allowRemove = true
  apart : (st.rows (files c.log)).filter statement.matches ≠ [] → Apart c statement.matches

variable {engine schema admits}

theorem setStorable_perm {rows more : List (Row ν)} (h : rows.Perm more)
    (statement : Statement τ ν L) :
    setStorable engine schema rows statement = setStorable engine schema more statement := by
  cases statement with
  | delete p => rfl
  | replaceWhere p data => rfl
  | update p assignments =>
    refine storable_perm ?_
    unfold seenRows
    split_ifs
    · exact h.filter _
    · exact h

variable {st₁ st₂ st₃ : Storage (Row ν)} {c₁ : Contents st₁} {c₂ : Contents st₂}
  {c₃ : Contents st₃}

/-- The three paths leave the same rows, report the same count and fail on the
same statements exactly where nothing left alone disturbs them. -/
theorem paths_agree_iff
    (hvectors : (st₁.scan c₁.log c₁.valid.nodup).deletionVectors = true)
    (hnone : (st₂.scan c₂.log c₂.valid.nodup).deletionVectors = false)
    (h₂ : st₂.bag (files c₂.log) = st₁.bag (files c₁.log))
    (h₃ : st₃.bag (files c₃.log) = st₁.bag (files c₁.log)) (statement : Statement τ ν L) :
    (byDml engine schema admits c₂ false statement = byDml engine schema admits c₁ true statement ∧
      byTable engine schema admits c₃ statement = byDml engine schema admits c₁ true statement) ↔
    ∀ new, newRows engine schema (st₂.rows (files c₂.log)) statement = some new →
      new.all admits = true → Undisturbed engine schema admits c₂ statement new := by
  have hperm₂ : (st₂.rows (files c₂.log)).Perm (st₁.rows (files c₁.log)) :=
    Multiset.coe_eq_coe.mp h₂
  have hperm₃ : (st₃.rows (files c₃.log)).Perm (st₂.rows (files c₂.log)) :=
    (Multiset.coe_eq_coe.mp h₃).trans hperm₂.symm
  rw [byDml_vectors hvectors, ← outcome_perm hperm₂, byDml_rewrites_iff hnone,
    ← outcome_perm hperm₃, byTable_iff]
  constructor
  · rintro ⟨hfiles, htable⟩ new hnew hall
    obtain ⟨again, hagain, hnews⟩ := newRows_perm (hperm₃.symm.filter _) hnew
    obtain ⟨hstored, hkept⟩ := htable again hagain (hnews.all_eq.symm.trans hall)
    refine ⟨(setStorable_perm hperm₃ statement).symm.trans hstored, fun hbusy => ?_,
      fun hmatched => (hfiles new hnew hall hmatched).1,
      fun hmatched => (hfiles new hnew hall hmatched).2.2⟩
    rw [← (hperm₃.filter _).all_eq]
    refine hkept fun hidle => hbusy ?_
    exact ⟨(nil_of_perm (hperm₃.filter _)).mp hidle.1, (nil_of_perm hnews).mpr hidle.2⟩
  · intro h
    constructor
    · intro new hnew hall hmatched
      have hfit := h new hnew hall
      refine ⟨hfit.removable hmatched, ?_, hfit.apart hmatched⟩
      have hkept := hfit.kept fun hidle => hmatched hidle.1
      rw [all_eq_true] at hkept ⊢
      exact fun r hr => hkept r (readBack_subset c₂ statement.matches hr)
    · intro new hnew hall
      obtain ⟨again, hagain, hnews⟩ := newRows_perm (hperm₃.filter _) hnew
      have hfit := h again hagain (hnews.all_eq.symm.trans hall)
      refine ⟨(setStorable_perm hperm₃ statement).trans hfit.stored, fun hbusy => ?_⟩
      rw [(hperm₃.filter _).all_eq]
      refine hfit.kept fun hidle => hbusy ?_
      exact ⟨(nil_of_perm (hperm₃.filter _)).mpr hidle.1, (nil_of_perm hnews).mpr hidle.2⟩

end

inductive Integer where
  | int
  | bigint
  deriving DecidableEq

/-- A value as it is stored in a column of the type. -/
def Integer.fit (t : Integer) (v : Option Int) : Option (Option Int) :=
  if t = .bigint ∨ v.all fun n => -2 ^ 31 ≤ n ∧ n < 2 ^ 31 then some v else none

def integers : Engine Integer (Option Int) Int where
  null := none
  isNested _ := false
  isInteger _ := true
  isFloating _ := false
  scale _ := none
  placeholder _ v := v
  trunc v := v
  roundTowardsZero := some
  roundHalfUp _ := some
  cast _ t := some t.fit
  lower name := name
  ofRaw n := some (.bigint, some n)
  compute _ := none
  placeholder_null _ := rfl
  trunc_null := rfl
  roundTowardsZero_null := rfl
  roundHalfUp_null _ := rfl
  cast_null _ t f h := by
    obtain rfl := Option.some.inj h
    cases t <;> rfl

def twoColumns : List (Column Integer) := [⟨"i", .int, true⟩, ⟨"b", .bigint, true⟩]

/-- One file of two rows, the second with a BIGINT no INT can hold. -/
def twoRows : Storage (Row (Option Int)) where
  contents path := if path = ['a'] then [[some 1, some 2], [some 0, some (2 ^ 40)]] else []
  hidden _ := ∅

def onlyFile : AddFile where
  path := ['a']
  partitionValues := []
  size := 10
  dataChange := true
  stats := none
  numRecords := some 2
  tags := []
  deletionVector := none
  baseRowId := none
  defaultRowCommitVersion := none

def created (metaData : TableMetadata) (protocol : Metadata.Protocol) : Log :=
  [⟨[onlyFile], [], some metaData, some protocol, [], none⟩]

def withVectors : Contents twoRows where
  log := created ⟨"t", "", [], [("delta.enableDeletionVectors", "true")]⟩
    ⟨3, 7, some ["deletionVectors"], some ["deletionVectors"]⟩
  valid := by decide
  counted := by decide

def withoutVectors : Contents twoRows where
  log := created ⟨"t", "", [], []⟩ ⟨1, 2, none, none⟩
  valid := by decide
  counted := by decide

/-- `UPDATE t SET i = b WHERE i = 1`. -/
def narrow : Statement Integer (Option Int) Int :=
  .update (some fun r => (r.getD 0 none).map fun n => n = 1) [("i", .column ["b"])]

/-- `UPDATE t SET i = 5, b = i WHERE i = 1`. -/
def shifted : Statement Integer (Option Int) Int :=
  .update (some fun r => (r.getD 0 none).map fun n => n = 1)
    [("i", .literal 5), ("b", .column ["i"])]

/-- A value stored for a row the predicate leaves alone fails the whole-table path only. -/
theorem narrow_diverges :
    byDml integers twoColumns (fun _ => true) withVectors true narrow =
        some (1, {[some 2, some 2], [some 0, some (2 ^ 40)]}) ∧
      byDml integers twoColumns (fun _ => true) withoutVectors false narrow =
        some (1, {[some 2, some 2], [some 0, some (2 ^ 40)]}) ∧
      byTable integers twoColumns (fun _ => true) withoutVectors narrow = none := by
  decide

theorem paths_agree_shifted :
    byDml integers twoColumns (fun _ => true) withoutVectors false shifted =
        byDml integers twoColumns (fun _ => true) withVectors true shifted ∧
      byTable integers twoColumns (fun _ => true) withoutVectors shifted =
        byDml integers twoColumns (fun _ => true) withVectors true shifted := by
  refine (paths_agree_iff (by decide) (by decide) (by decide) (by decide) shifted).mpr ?_
  intro new _ _
  exact ⟨by decide, fun _ => by decide, fun _ => by decide, fun _ => by unfold Apart; decide⟩

end DeltaSwamp.Rewrite
