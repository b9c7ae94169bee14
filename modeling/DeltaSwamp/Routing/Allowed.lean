import DeltaSwamp.Routing.Capability

/-!
# What routing allows

An engine the router names has passed every refusal there is, except that a
shared table's own engine is asked even where it is excluded, and a RESTORE is
no stale write of a UniForm table to the router.
-/

namespace DeltaSwamp.Routing

open List

open Metadata (mem_sortedNames)

variable (S : Str) (nativeHas : String → Bool) (router : Router) (operation : Operation)
  (table : ResolvedTable) (needs : List String) (exclude : List EngineKind) (shape : Shape)

/-- What a table and a request must be for an engine that opens the files itself. -/
structure DirectAllowed : Prop where
  delta : table.isDelta S = true
  notShared : table.isShared = false
  readable : table.unreadableView = false
  notForeign : table.tableType ≠ some .foreign
  notHive : table.isUcHiveMetastore S = false
  notManaged : operation ∈ catalogManagedAlterOps → table.isCatalogManaged S = false
  opened : operation ∉ noLogYet → table.openError = none
  reads : table.externalReadSupported ≠ some false
  writes : operation ∉ Operation.readOperations → table.externalWriteSupported ≠ some false
  keepsRows : table.appendOnly S = true →
    operation ∉ Operation.appendOnlyForbidden ∧ "removes_rows" ∉ needs
  uniform : operation ∈ dataWrites → table.uniformIceberg S = false

/-- Delta-rs reads or rewrites no file in Spark's legacy calendar that the kernel finds, and
rewrites none where the kernel cannot look. -/
def CalendarClear : Prop :=
  operation ∈ calendarBound → table.hasDatetimeColumns = true →
    ∀ check, (router.engines .kernel).bind Engine.legacyCalendarFiles = some check →
      (∀ found, check table (readAt operation shape) = .ok found → found = []) ∧
      (operation ∈ fileRewrites → ∃ found, check table (readAt operation shape) = .ok found)

/-- The engine serves every need that is not a hint to the router, or evaluates the SQL itself. -/
def ServesNeeds (kind : EngineKind) (engine : Engine) : Prop :=
  ∀ need ∈ needs, need ∉ routerHints → engine.declares need = true ∨
    (kind = .kernel ∧ need = "sql_expressions" ∧
      (kernelFiltersSql router kind operation table needs engine shape = true ∨
        kernelEvaluatesSql kind operation needs engine = true))

/-- The engine may serve the request. -/
structure Allowed (kind : EngineKind) : Prop where
  configured : ∃ engine, router.engines kind = some engine ∧
    ServesNeeds router operation table needs shape kind engine
  notExcluded : kind ∉ exclude
  warehouse : kind = .sql → router.allowSqlFallback = true ∧ router.warehouseCatalog = true ∧
    table.warehouseCanName S = true
  direct : kind.direct = true → DirectAllowed S operation table needs
  calendar : kind = .deltars → CalendarClear router operation table shape

/-- A shared table whose engine is excluded and would accept. -/
def SharedThoughExcluded : Prop :=
  table.isShared = true ∧ .sharing ∈ exclude ∧ requestRefusal S table needs = none ∧
    ∃ sharing, router.engines .sharing = some sharing ∧ unmet sharing needs = [] ∧
      sharing.supports operation table shape = .accepts

/-- What an engine of the loop passed before it was named. -/
structure Passed (kind : EngineKind) (engine : Engine) : Prop where
  open' : tableRefusal S nativeHas operation table shape kind = none
  serves : missingNeeds router operation table needs shape kind engine = []
  willing : needsRefusal table needs engine = none
  decodes : columnRefusal S operation table needs kind = none
  able : operationBlocker S kind operation table engine = none
  accepts : engine.supports operation (exempted kind operation table shape) shape = .accepts
  files : fileRefusal router operation table shape kind engine = none

/-- A RESTORE of a UniForm table, refused by nothing else, that the kernel or delta-rs accepts. -/
def UniformRestored : Prop :=
  operation = .restore ∧ table.uniformIceberg S = true ∧ table.isShared = false ∧
    router.catalogLevelBlock S operation table = none ∧ requestRefusal S table needs = none ∧
    ∃ kind engine, kind.direct = true ∧ kind ∉ exclude ∧ router.engines kind = some engine ∧
      Passed S nativeHas router operation table needs shape kind engine

variable {S nativeHas router operation table needs exclude shape}

theorem refusal_eq_none {α : Type} {c : Prop} [Decidable c] {refusal : α} {rest : Option α} :
    (if c then some refusal else rest) = none ↔ ¬ c ∧ rest = none := by
  by_cases hc : c <;> simp [hc]

variable {engine : Engine}

theorem declares_of_unmet (h : unmet engine needs = []) {need : String} (hneed : need ∈ needs)
    (hhint : need ∉ routerHints) : engine.declares need = true := by
  by_contra hnot
  have hmem : need ∈ unmet engine needs := by
    rw [unmet, mem_sortedNames, mem_filter, mem_filter]
    exact ⟨⟨hneed, decide_eq_true hhint⟩, by simpa using hnot⟩
  rw [h] at hmem
  cases hmem

variable {kind : EngineKind}

theorem servesNeeds_of_missing
    (h : missingNeeds router operation table needs shape kind engine = []) :
    ServesNeeds router operation table needs shape kind engine := by
  intro need hneed hhint
  rw [missingNeeds] at h
  split_ifs at h with hevaluates
  · obtain ⟨hunmet, hkernel⟩ := hevaluates
    by_cases hdeclares : engine.declares need = true
    · exact .inl hdeclares
    · have hmem : need ∈ unmet engine needs := by
        rw [unmet, mem_sortedNames, mem_filter, mem_filter]
        exact ⟨⟨hneed, decide_eq_true hhint⟩, by simpa using hdeclares⟩
      rw [hunmet, mem_singleton] at hmem
      refine .inr ⟨?_, hmem, hkernel⟩
      rcases hkernel with hkernel | hkernel
      · simp only [kernelFiltersSql, Bool.and_eq_true, decide_eq_true_eq, and_assoc] at hkernel
        exact hkernel.1
      · simp only [kernelEvaluatesSql, Bool.and_eq_true, decide_eq_true_eq, and_assoc] at hkernel
        exact hkernel.1
  · exact .inl (declares_of_unmet h hneed hhint)

theorem sqlRefusal_eq_none : sqlRefusal S router table kind = none ↔
    (kind = .sql → router.allowSqlFallback = true ∧ router.warehouseCatalog = true ∧
      table.warehouseCanName S = true) := by
  unfold sqlRefusal
  by_cases hsql : kind = .sql
  · simp only [hsql, true_and, forall_const, Bool.not_eq_true]
    split_ifs with h₁ h₂ h₃
    · simp [h₁]
    · simp [h₂]
    · simp [h₃]
    · simp_all
  · simp [hsql]

theorem opened_iff : ¬ (table.openError.isSome = true ∧ operation ∉ noLogYet) ↔
    (operation ∉ noLogYet → table.openError = none) := by
  rw [not_and', Bool.not_eq_true, Option.isSome_eq_false_iff, Option.isNone_iff_eq_none]

theorem directRefusal_eq_none : directRefusal S operation table = none ↔ table.isShared = true ∨
    (table.isDelta S = true ∧ table.unreadableView = false ∧ table.tableType ≠ some .foreign ∧
      table.isUcHiveMetastore S = false ∧
      (operation ∈ catalogManagedAlterOps → table.isCatalogManaged S = false) ∧
      (operation ∉ noLogYet → table.openError = none)) := by
  unfold directRefusal
  cases hshared : table.isShared with
  | true => simp
  | false =>
    have hmanaged : ¬ (table.isCatalogManaged S = true ∧ operation ∈ catalogManagedAlterOps) ↔
        (operation ∈ catalogManagedAlterOps → table.isCatalogManaged S = false) := by
      rw [not_and', Bool.not_eq_true]
    simp only [Bool.false_eq_true, if_false, refusal_eq_none, Bool.not_eq_true', hmanaged,
      opened_iff, Bool.not_eq_true, Bool.not_eq_false, false_or, and_true, ne_eq]

theorem vendable_iff : vendable operation table = true ↔
    table.externalReadSupported ≠ some false ∧
      (operation ∉ Operation.readOperations → table.externalWriteSupported ≠ some false) := by
  simp only [vendable, Bool.and_eq_true, Bool.not_eq_true', Bool.and_eq_false_iff,
    decide_eq_true_eq, decide_eq_false_iff_not, not_not]
  tauto

theorem tableRefusal_eq_none :
    tableRefusal S nativeHas operation table shape kind = none ↔
      (kind.direct = true → directRefusal S operation table = none ∧
        strandsLegacyTable S nativeHas operation table shape = none ∧
        vendable operation table = true) := by
  unfold tableRefusal
  by_cases hdirect : kind.direct = true
  · simp only [hdirect, true_and, forall_const]
    cases directRefusal S operation table with
    | some reason => simp
    | none =>
      cases strandsLegacyTable S nativeHas operation table shape with
      | some reason => simp
      | none => cases vendable operation table <;> simp
  · simp [hdirect]

theorem operationBlocker_appendOnly (h : operationBlocker S kind operation table engine = none)
    (hdirect : kind.direct = true) :
    (table.appendOnly S = true → operation ∉ Operation.appendOnlyForbidden) ∧
      (operation ∈ Operation.uniformStaleWrites → table.uniformIceberg S = false) := by
  unfold operationBlocker at h
  split_ifs at h with h₁ h₂
  all_goals
    refine ⟨fun hrows hmem => h₁ ⟨hdirect, hmem, hrows⟩, fun hmem => ?_⟩
    by_contra hiceberg
    exact h₂ ⟨hdirect, hmem, by simpa using hiceberg⟩

theorem calendarRefusal_clear (h : calendarRefusal router table operation shape = none) :
    CalendarClear router operation table shape := by
  intro _ hcolumns check hcheck
  simp only [calendarRefusal, hcolumns, Bool.not_true, Bool.false_eq_true, if_false, hcheck] at h
  cases hfound : check table (readAt operation shape) with
  | error e =>
    rw [hfound] at h
    refine ⟨nofun, fun hrewrite => ?_⟩
    simp only [hrewrite, not_true_eq_false, if_false] at h
    cases h
  | ok found =>
    rw [hfound] at h
    refine ⟨fun found' hfound' => ?_, fun _ => ⟨found, rfl⟩⟩
    cases hfound'
    by_contra hsome
    simp only [hsome, if_false] at h
    split_ifs at h

theorem ask_ok_iff :
    ask S nativeHas router operation table needs shape kind engine = .ok () ↔
      Passed S nativeHas router operation table needs shape kind engine := by
  constructor
  · intro h
    unfold ask at h
    cases hopen : tableRefusal S nativeHas operation table shape kind with
    | some reason =>
      rw [hopen] at h
      cases h
    | none =>
      rw [hopen] at h
      dsimp only at h
      by_cases hserves : missingNeeds router operation table needs shape kind engine = []
      · rw [if_neg (not_not.mpr hserves)] at h
        cases hscreens : ((needsRefusal table needs engine).or
            (columnRefusal S operation table needs kind)).or
            (operationBlocker S kind operation table engine) with
        | some reason =>
          rw [hscreens] at h
          cases h
        | none =>
          rw [hscreens] at h
          dsimp only at h
          simp only [Option.or_eq_none_iff] at hscreens
          cases haccepts : engine.supports operation (exempted kind operation table shape)
              shape with
          | refuses reason remedy =>
            rw [haccepts] at h
            cases h
          | accepts =>
            rw [haccepts] at h
            dsimp only at h
            cases hfiles : fileRefusal router operation table shape kind engine with
            | some reason =>
              rw [hfiles] at h
              cases h
            | none =>
              exact ⟨hopen, hserves, hscreens.1.1, hscreens.1.2, hscreens.2, haccepts,
                hfiles⟩
      · rw [if_pos hserves] at h
        cases h
  · intro h
    unfold ask
    simp only [h.open', h.serves, h.willing, h.decodes, h.able, h.accepts, h.files, ne_eq,
      not_true_eq_false, if_false, Option.or_none]

theorem consider_ok_iff :
    consider S nativeHas router operation table needs exclude shape kind = .ok () ↔
      kind ∉ exclude ∧ sqlRefusal S router table kind = none ∧
      ∃ engine, router.engines kind = some engine ∧
        Passed S nativeHas router operation table needs shape kind engine := by
  unfold consider
  by_cases hexclude : kind ∈ exclude
  · simp [hexclude]
  · rw [if_neg hexclude]
    cases sqlRefusal S router table kind with
    | some reason => simp
    | none =>
      cases router.engines kind with
      | none => simp
      | some engine => simp [hexclude, ask_ok_iff]

theorem route_inl {kinds : List EngineKind} {reasons : List String} {remedy : String}
    (h : route S nativeHas router operation table needs exclude shape kinds reasons remedy =
      .inl kind) :
    kind ∈ kinds ∧ consider S nativeHas router operation table needs exclude shape kind =
      .ok () := by
  induction kinds generalizing reasons remedy with
  | nil => cases h
  | cons head kinds ih =>
    rw [route] at h
    split at h
    · rename_i hok
      cases h
      exact ⟨mem_cons_self, hok⟩
    · obtain ⟨hmem, hok⟩ := ih h
      exact ⟨mem_cons_of_mem _ hmem, hok⟩

/-- An engine that serves is named, or one asked before it. -/
theorem route_of_ok {front : List EngineKind} (rest : List EngineKind) (reasons : List String)
    (remedy : String) (hmem : kind ∈ front)
    (hok : consider S nativeHas router operation table needs exclude shape kind = .ok ()) :
    ∃ named ∈ front, route S nativeHas router operation table needs exclude shape (front ++ rest)
      reasons remedy = .inl named := by
  induction front generalizing reasons remedy with
  | nil => cases hmem
  | cons head front ih =>
    rw [cons_append, route]
    split
    · exact ⟨head, mem_cons_self, rfl⟩
    · rename_i skipped hskipped
      rcases mem_cons.mp hmem with rfl | hmem
      · rw [hok] at hskipped
        cases hskipped
      · obtain ⟨named, hnamed, hroute⟩ := ih _ _ hmem
        exact ⟨named, mem_cons_of_mem _ hnamed, hroute⟩

theorem mem_preference {engines : List EngineKind} :
    kind ∈ preference S operation table engines ↔ kind ∈ engines := by
  unfold preference
  split_ifs with hfirst
  · simp only [mem_cons, mem_filter, decide_eq_true_eq]
    constructor
    · rintro (rfl | ⟨hmem, -⟩)
      · exact hfirst.1
      · exact hmem
    · intro hmem
      by_cases hkernel : kind = .kernel
      · exact .inl hkernel
      · exact .inr ⟨hmem, hkernel⟩
  · rfl

theorem loopVerdict_ok_iff :
    (loopVerdict S nativeHas router operation table needs exclude shape).ok = true ↔
      ∃ kind ∈ operation.engines,
        consider S nativeHas router operation table needs exclude shape kind = .ok () := by
  unfold loopVerdict
  split
  · rename_i kind hroute
    obtain ⟨hmem, hok⟩ := route_inl hroute
    exact iff_of_true rfl ⟨kind, mem_preference.mp hmem, hok⟩
  · rename_i reasons remedy hroute
    refine iff_of_false (by simp [Capability.refused]) ?_
    rintro ⟨kind, hmem, hok⟩
    obtain ⟨named, -, hnamed⟩ := route_of_ok [] [] "" (mem_preference.mpr hmem) hok
    rw [append_nil, hroute] at hnamed
    cases hnamed

variable (S table) in
/-- The engines that open the files themselves are asked for a RESTORE before the warehouse. -/
theorem preference_restore : ∃ front : List EngineKind,
    preference S .restore table Operation.restore.engines = front ++ [.sql] ∧
      ∀ kind : EngineKind, kind ∈ front ↔ kind.direct = true := by
  unfold preference
  split_ifs with hfirst
  · refine ⟨[.kernel, .deltars], rfl, fun kind => ?_⟩
    cases kind <;> decide
  · refine ⟨[.deltars, .kernel], rfl, fun kind => ?_⟩
    cases kind <;> decide

theorem loopVerdict_restore (hdirect : kind.direct = true)
    (hok : consider S nativeHas router .restore table needs exclude shape kind = .ok ()) :
    ∃ named, (loopVerdict S nativeHas router .restore table needs exclude shape).ok = true ∧
      (loopVerdict S nativeHas router .restore table needs exclude shape).engine = some named ∧
      named.direct = true := by
  obtain ⟨front, hfront, hmem⟩ := preference_restore S table
  obtain ⟨named, hnamed, hroute⟩ := route_of_ok [.sql] [] "" ((hmem kind).mpr hdirect) hok
  have hverdict : loopVerdict S nativeHas router .restore table needs exclude shape =
      ⟨.restore, true, some named, "", ""⟩ := by
    unfold loopVerdict
    rw [hfront, hroute]
  exact ⟨named, by rw [hverdict], by rw [hverdict], (hmem named).mp hnamed⟩

variable {c : Capability}

theorem databricksBlock_refused (h : router.databricksBlock S operation table = some c) :
    c.ok = false := by
  unfold Router.databricksBlock at h
  dsimp only at h
  split_ifs at h
  all_goals
    cases h
    rfl

theorem reachBlock_refused (h : router.reachBlock S operation table = some c) : c.ok = false := by
  unfold Router.reachBlock at h
  split_ifs at h
  all_goals first | exact databricksBlock_refused h | (cases h; rfl)

theorem formatBlock_refused (h : router.formatBlock S operation table = some c) : c.ok = false := by
  unfold Router.formatBlock at h
  dsimp only at h
  split_ifs at h
  all_goals
    cases h
    rfl

theorem viewBlock_refused (h : router.viewBlock S operation table = some c) : c.ok = false := by
  unfold Router.viewBlock at h
  split_ifs at h
  all_goals
    cases h
    rfl

theorem catalogLevelBlock_refused (h : router.catalogLevelBlock S operation table = some c) :
    c.ok = false := by
  unfold Router.catalogLevelBlock at h
  split_ifs at h
  all_goals first
    | exact formatBlock_refused h
    | exact viewBlock_refused h
    | exact reachBlock_refused h
    | (cases h; rfl)

variable {sharing : Engine}

theorem catalogLevelBlock_shared (hshared : table.isShared = true)
    (hsharing : router.engines .sharing = some sharing) :
    router.catalogLevelBlock S operation table = none := by
  simp [Router.catalogLevelBlock, hshared, hsharing]

theorem catalogLevelBlock_unshared (hshared : table.isShared = true)
    (hnone : router.engines .sharing = none) :
    router.catalogLevelBlock S operation table ≠ none := by
  simp [Router.catalogLevelBlock, hshared, hnone]

@[simp] theorem scrubbed_ok (verdict : Capability) :
    (router.scrubbed verdict).ok = verdict.ok := by
  unfold Router.scrubbed
  split_ifs <;> rfl

@[simp] theorem scrubbed_engine (verdict : Capability) :
    (router.scrubbed verdict).engine = verdict.engine := by
  unfold Router.scrubbed
  split_ifs <;> rfl

variable (nativeHas operation exclude shape) in
theorem decideCapability_shared (hshared : table.isShared = true)
    (hsharing : router.engines .sharing = some sharing)
    (hrequest : requestRefusal S table needs = none) :
    decideCapability S nativeHas router operation table needs exclude shape =
      sharedVerdict operation table needs shape sharing := by
  unfold decideCapability
  rw [catalogLevelBlock_shared hshared hsharing, hrequest, hsharing]
  exact if_pos hshared

variable (nativeHas exclude shape) in
theorem decideCapability_loop (hshared : table.isShared = false)
    (hblock : router.catalogLevelBlock S operation table = none)
    (hrequest : requestRefusal S table needs = none) :
    decideCapability S nativeHas router operation table needs exclude shape =
      loopVerdict S nativeHas router operation table needs exclude shape := by
  unfold decideCapability
  rw [hblock, hrequest]
  cases router.engines .sharing with
  | none => rfl
  | some sharing => simp [hshared]

theorem sharedVerdict_ok_iff :
    (sharedVerdict operation table needs shape sharing).ok = true ↔
      unmet sharing needs = [] ∧ sharing.supports operation table shape = .accepts := by
  unfold sharedVerdict
  by_cases hunmet : unmet sharing needs = []
  · simp only [hunmet, ne_eq, not_true_eq_false, if_false, true_and]
    cases sharing.supports operation table shape with
    | accepts => simp [Answer.capability]
    | refuses reason remedy => simp [Answer.capability, Capability.refused]
  · simp [hunmet, Capability.refused]

/-- A request is served only past the refusals, by the shared table's engine or by the loop. -/
theorem decideCapability_ok_iff :
    (decideCapability S nativeHas router operation table needs exclude shape).ok = true ↔
      router.catalogLevelBlock S operation table = none ∧ requestRefusal S table needs = none ∧
      ((table.isShared = true ∧ ∃ sharing, router.engines .sharing = some sharing ∧
          unmet sharing needs = [] ∧ sharing.supports operation table shape = .accepts) ∨
        (table.isShared = false ∧ ∃ kind ∈ operation.engines,
          consider S nativeHas router operation table needs exclude shape kind = .ok ())) := by
  cases hblock : router.catalogLevelBlock S operation table with
  | some blocked =>
    refine iff_of_false ?_ (by simp)
    simp only [decideCapability, hblock, catalogLevelBlock_refused hblock]
    exact Bool.false_ne_true
  | none =>
    cases hrequest : requestRefusal S table needs with
    | some refusal =>
      refine iff_of_false ?_ (by simp)
      simp only [decideCapability, hblock, hrequest, Capability.refused]
      exact Bool.false_ne_true
    | none =>
      cases hshared : table.isShared with
      | true =>
        cases hsharing : router.engines .sharing with
        | none => exact absurd hblock (catalogLevelBlock_unshared hshared hsharing)
        | some sharing =>
          rw [decideCapability_shared _ _ _ _ hshared hsharing hrequest, sharedVerdict_ok_iff]
          simp
      | false =>
        rw [decideCapability_loop _ _ _ hshared hblock hrequest, loopVerdict_ok_iff]
        simp

theorem loopVerdict_engine
    (h : (loopVerdict S nativeHas router operation table needs exclude shape).ok = true) :
    ∃ kind ∈ operation.engines,
      (loopVerdict S nativeHas router operation table needs exclude shape).engine = some kind ∧
      consider S nativeHas router operation table needs exclude shape kind = .ok () := by
  unfold loopVerdict at h ⊢
  split at h
  · rename_i kind hroute
    obtain ⟨hmem, hok⟩ := route_inl hroute
    exact ⟨kind, mem_preference.mp hmem, by simp, hok⟩
  · simp [Capability.refused] at h

theorem requestRefusal_keepsRows (h : requestRefusal S table needs = none)
    (hrows : table.appendOnly S = true) : "removes_rows" ∉ needs := by
  intro hmem
  unfold requestRefusal at h
  split_ifs at h with h₁ h₂ h₃
  exact h₃ ⟨hmem, hrows⟩

theorem dataWrites_stale (h : operation ∈ dataWrites) :
    operation = .restore ∨ operation ∈ Operation.uniformStaleWrites := by
  revert h
  cases operation <;> decide

theorem Passed.allowed (h : Passed S nativeHas router operation table needs shape kind engine)
    (hshared : table.isShared = false) (hrequest : requestRefusal S table needs = none)
    (hrestore : operation = .restore → table.uniformIceberg S = false)
    (hdirect : kind.direct = true) : DirectAllowed S operation table needs := by
  obtain ⟨hrefusal, -, hvendable⟩ := tableRefusal_eq_none.mp h.open' hdirect
  obtain ⟨hreads, hwrites⟩ := vendable_iff.mp hvendable
  obtain ⟨hrows, huniform⟩ := operationBlocker_appendOnly h.able hdirect
  rcases directRefusal_eq_none.mp hrefusal with hnot | ⟨h₁, h₂, h₃, h₄, h₅, h₆⟩
  · rw [hshared] at hnot
    cases hnot
  · exact
      { delta := h₁
        notShared := hshared
        readable := h₂
        notForeign := h₃
        notHive := h₄
        notManaged := h₅
        opened := h₆
        reads := hreads
        writes := hwrites
        keepsRows := fun happend => ⟨hrows happend, requestRefusal_keepsRows hrequest happend⟩
        uniform := fun hwrite => (dataWrites_stale hwrite).elim hrestore huniform }

theorem Passed.calendarClear
    (h : Passed S nativeHas router operation table needs shape .deltars engine) :
    CalendarClear router operation table shape := by
  intro hbound
  have hfiles := h.files
  rw [fileRefusal] at hfiles
  simp only [hbound, and_self, if_true, Option.or_eq_none_iff] at hfiles
  exact calendarRefusal_clear hfiles.1 hbound

theorem allowed_of_consider (hshared : table.isShared = false)
    (hblock : router.catalogLevelBlock S operation table = none)
    (hrequest : requestRefusal S table needs = none)
    (hrestored : ¬ UniformRestored S nativeHas router operation table needs exclude shape)
    (h : consider S nativeHas router operation table needs exclude shape kind = .ok ()) :
    Allowed S router operation table needs exclude shape kind := by
  obtain ⟨hexclude, hsql, engine, hengine, hpassed⟩ := consider_ok_iff.mp h
  exact
    { configured := ⟨engine, hengine, servesNeeds_of_missing hpassed.serves⟩
      notExcluded := hexclude
      warehouse := sqlRefusal_eq_none.mp hsql
      direct := by
        intro hdirect
        refine hpassed.allowed hshared hrequest (fun hrestore => ?_) hdirect
        by_contra huniform
        exact hrestored ⟨hrestore, by simpa using huniform, hshared, hblock, hrequest, kind, engine,
          hdirect, hexclude, hengine, hpassed⟩
      calendar := by
        rintro rfl
        exact hpassed.calendarClear }

variable (S nativeHas router operation table needs exclude shape)

/-- The engine a capability names may serve the request, on every input but a shared table whose
engine is excluded and would accept, and a RESTORE of a UniForm table. -/
theorem capability_allowed_iff :
    ((capability S nativeHas router operation table needs exclude shape).ok = true →
      ∃ kind, (capability S nativeHas router operation table needs exclude shape).engine =
        some kind ∧ Allowed S router operation table needs exclude shape kind) ↔
      ¬ SharedThoughExcluded S router operation table needs exclude shape ∧
        ¬ UniformRestored S nativeHas router operation table needs exclude shape := by
  simp only [capability, scrubbed_ok, scrubbed_engine]
  constructor
  · intro hallowed
    constructor
    · rintro ⟨hshared, hexclude, hrequest, sharing, hsharing, hunmet, haccepts⟩
      have hverdict := decideCapability_shared nativeHas operation exclude shape hshared hsharing
        hrequest
      rw [hverdict] at hallowed
      obtain ⟨kind, hengine, hkind⟩ := hallowed (sharedVerdict_ok_iff.mpr ⟨hunmet, haccepts⟩)
      simp only [sharedVerdict, hunmet, haccepts, ne_eq, not_true_eq_false, if_false,
        Answer.capability, Option.some.injEq] at hengine
      subst hengine
      exact hkind.notExcluded hexclude
    · rintro ⟨rfl, huniform, hshared, hblock, hrequest, kind, engine, hdirect, hexclude, hengine,
        hpassed⟩
      have hsql : sqlRefusal S router table kind = none := by
        refine sqlRefusal_eq_none.mpr ?_
        rintro rfl
        cases hdirect
      have hconsider := consider_ok_iff.mpr ⟨hexclude, hsql, engine, hengine, hpassed⟩
      obtain ⟨named, hok, hnamed, hdirect⟩ := loopVerdict_restore hdirect hconsider
      rw [decideCapability_loop nativeHas exclude shape hshared hblock hrequest] at hallowed
      obtain ⟨kind, hkind, hallowed⟩ := hallowed hok
      rw [hnamed] at hkind
      cases hkind
      have hnot := (hallowed.direct hdirect).uniform (by decide)
      rw [huniform] at hnot
      cases hnot
  · rintro ⟨hnot, hrestored⟩ hok
    obtain ⟨hblock, hrequest, ⟨hshared, sharing, hsharing, hunmet, haccepts⟩ | ⟨hshared, -⟩⟩ :=
      decideCapability_ok_iff.mp hok
    · have hverdict := decideCapability_shared nativeHas operation exclude shape hshared hsharing
        hrequest
      refine ⟨.sharing, ?_, ?_⟩
      · rw [hverdict]
        simp [sharedVerdict, hunmet, haccepts, Answer.capability]
      · exact
          { configured := ⟨sharing, hsharing, fun need hneed hhint =>
              .inl (declares_of_unmet hunmet hneed hhint)⟩
            notExcluded := fun hexclude =>
              hnot ⟨hshared, hexclude, hrequest, sharing, hsharing, hunmet, haccepts⟩
            warehouse := nofun
            direct := nofun
            calendar := nofun }
    · have hverdict := decideCapability_loop nativeHas exclude shape hshared hblock hrequest
      rw [hverdict] at hok ⊢
      obtain ⟨kind, -, hengine, hconsider⟩ := loopVerdict_engine hok
      exact ⟨kind, hengine, allowed_of_consider hshared hblock hrequest hrestored hconsider⟩

def asciiStr : Str where
  lower := String.toLower
  upper := String.toUpper
  strip text := text.trimAscii.toString

/-- An engine that declares some needs and answers every request alike. -/
def plainEngine (answer : Answer) (declared : List String) : Engine where
  supports _ _ _ := answer
  declares need := decide (need ∈ declared)
  needRefusal := none
  supportsReadSqlExpressions := false
  supportsDmlSqlExpressions := false
  checkpointsPastValueConstraints := none
  hasInvariants := none
  legacyCalendarFiles := none
  earlyDatetimeFiles := none
  writesFilesItself := none

/-- A Delta table with a Unity Catalog name and no properties. -/
def plainTable : ResolvedTable where
  ref := ⟨.catalog, some "main", some "uc"⟩
  location := some "s3://bucket/table"
  tableType := some .external
  dataSourceFormat := some "DELTA"
  minReaderVersion := some 1
  minWriterVersion := some 2
  readerFeatures := []
  writerFeatures := []
  properties := []
  hasGeneratedColumns := false
  hasDatetimeColumns := true
  openError := none
  externalReadSupported := none
  externalWriteSupported := none
  accessPolicy := none
  icebergRestUri := none
  sharingProfile := none

/-- `asciiStr`, character by character. -/
def charStr : Str where
  lower text := String.ofList (text.toList.map Char.toLower)
  upper text := String.ofList (text.toList.map Char.toUpper)
  strip text := String.ofList
    ((text.toList.dropWhile Char.isWhitespace).reverse.dropWhile Char.isWhitespace).reverse

def uniformTable : ResolvedTable :=
  { plainTable with properties := [("delta.universalFormat.enabledFormats", "iceberg")] }

/-- A shared table's engine failed and was excluded, and is named again; and the kernel is named
for a RESTORE of a UniForm table. -/
theorem capability_excluded :
    (∃ router verdict, verdict = capability asciiStr (fun _ => true) router .scan
        { plainTable with sharingProfile := some "profile.json" } [] [.sharing] [] ∧
      verdict.ok = true ∧ verdict.engine = some .sharing ∧
      ¬ Allowed asciiStr router .scan { plainTable with sharingProfile := some "profile.json" } []
        [.sharing] [] .sharing) ∧
      ∃ router verdict, verdict = capability charStr (fun _ => true) router .restore uniformTable
        [] [] [] ∧ verdict.ok = true ∧ verdict.engine = some .kernel ∧
        ¬ Allowed charStr router .restore uniformTable [] [] [] .kernel := by
  constructor
  · refine ⟨⟨fun kind => if kind = .sharing then some (plainEngine .accepts []) else none, false,
      true⟩, _, rfl, by decide +kernel, by decide +kernel, fun h => ?_⟩
    exact h.notExcluded mem_cons_self
  · refine ⟨⟨fun kind => if kind = .kernel then some (plainEngine .accepts []) else none, false,
      true⟩, _, rfl, by decide +kernel, by decide +kernel, fun h => ?_⟩
    have huniform := (h.direct rfl).uniform (by decide)
    revert huniform
    decide +kernel

end DeltaSwamp.Routing
