import DeltaSwamp.Routing.Allowed

/-!
# The SQL fallback

The same connection without the fallback and with it: what enabling it leaves as
it was, and where the advice to enable it can be followed.
-/

namespace DeltaSwamp.Routing

/-- The connection with the fallback on and a SQL engine configured. -/
def Router.withFallback (router : Router) (sql : Engine) : Router where
  engines kind := if kind = .sql then some sql else router.engines kind
  allowSqlFallback := true
  warehouseCatalog := router.warehouseCatalog

variable (S : Str) (nativeHas : String → Bool) (router : Router) (sql : Engine)
  (operation : Operation) (table : ResolvedTable) (needs : List String)
  (exclude : List EngineKind) (shape : Shape)

/-- The fallback is said to help: `engine_for` raises `FallbackRequiredError`, or a refusal's
remedy names `allow_sql_fallback` as enough. -/
def Advised : Prop :=
  (∃ reason remedy, engineFor S nativeHas router operation table needs exclude shape =
    .fallbackRequired reason remedy) ∨
  ((capability S nativeHas router operation table needs exclude shape).ok = false ∧
    mentions (capability S nativeHas router operation table needs exclude shape).remedy
      "allow_sql_fallback" = true ∧
    (capability S nativeHas router operation table needs exclude shape).remedy ≠ registerRemedy)

/-- Nothing of the table itself forbids the operation to every engine. -/
def CatalogOpen : Prop :=
  table.isDelta S = true → ¬ (table.tableType ∈ queryDefined ∧ operation ∈ dataWrites) ∧
    (table.unreadableView = true ∨
      (¬ (operation ∈ appendOnlyForbids ∧ table.appendOnly S = true) ∧
        ¬ (present table.accessPolicy = true ∧ operation ∈ accessPolicyForbids)))

/-- An engine has the operation, is not excluded, and has every need. -/
structure Takes (kind : EngineKind) (engine : Engine) : Prop where
  serves : kind ∈ operation.engines
  notExcluded : kind ∉ exclude
  meets : unmet engine needs = []
  willing : needsRefusal table needs engine = none

/-- Where the warehouse, or an engine that is neither direct nor the warehouse, is let serve. -/
structure FallbackServes : Prop where
  notShared : table.isShared = false
  request : requestRefusal S table needs = none
  workspace : router.warehouseCatalog = true
  catalog : CatalogOpen S operation table
  engine : (table.warehouseCanName S = true ∧ Takes operation table needs exclude .sql sql) ∨
    ∃ kind ∈ [EngineKind.sharing, .iceberg], ∃ engine, router.engines kind = some engine ∧
      Takes operation table needs exclude kind engine ∧
      engine.supports operation table shape = .accepts

variable {S nativeHas router sql operation table needs exclude shape}

variable {kind : EngineKind}

theorem withFallback_engines (h : kind ≠ .sql) :
    (router.withFallback sql).engines kind = router.engines kind := if_neg h

theorem withFallback_sqlFallback :
    (router.withFallback sql).sqlFallback = router.warehouseCatalog := by
  simp [Router.sqlFallback, Router.withFallback]

theorem consider_withFallback (h : kind ≠ .sql) :
    consider S nativeHas (router.withFallback sql) operation table needs exclude shape kind =
      consider S nativeHas router operation table needs exclude shape kind := by
  unfold consider
  rw [withFallback_engines h]
  have hsql : ∀ r : Router, sqlRefusal S r table kind = none := by
    intro r
    exact sqlRefusal_eq_none.mpr fun heq => absurd heq h
  rw [hsql, hsql]
  rfl

theorem consider_sql_off (hoff : router.allowSqlFallback = false) :
    consider S nativeHas router operation table needs exclude shape .sql ≠ .ok () := by
  intro h
  have hrefusal := sqlRefusal_eq_none.mp (consider_ok_iff.mp h).2.1 rfl
  rw [hoff] at hrefusal
  exact Bool.false_ne_true hrefusal.1

theorem exempted_other (h : kind.direct = false) : exempted kind operation table shape = table := by
  cases kind with
  | kernel | deltars => cases h
  | sql | sharing | iceberg => exact if_pos (by decide)

variable {engine : Engine}

theorem operationBlocker_other (h : kind.direct = false) :
    operationBlocker S kind operation table engine = none := by
  have hblockers : operationFeatureBlockers kind operation = [] := by
    cases kind with
    | kernel | deltars => cases h
    | sql | sharing | iceberg => rfl
  have hkernel : kind ≠ .kernel := by
    rintro rfl
    cases h
  simp [operationBlocker, h, hblockers, hkernel]

theorem missingNeeds_other (h : kind.direct = false) :
    missingNeeds router operation table needs shape kind engine = unmet engine needs := by
  have hkernel : kind ≠ .kernel := by
    rintro rfl
    cases h
  simp [missingNeeds, kernelFiltersSql, kernelEvaluatesSql, hkernel]

theorem passed_other_iff (h : kind.direct = false) :
    Passed S nativeHas router operation table needs shape kind engine ↔
      unmet engine needs = [] ∧ needsRefusal table needs engine = none ∧
        engine.supports operation table shape = .accepts := by
  have hdeltars : kind ≠ .deltars := by
    rintro rfl
    cases h
  constructor
  · intro hpassed
    have hserves := hpassed.serves
    have haccepts := hpassed.accepts
    rw [missingNeeds_other h] at hserves
    rw [exempted_other h] at haccepts
    exact ⟨hserves, hpassed.willing, haccepts⟩
  · rintro ⟨hunmet, hwilling, haccepts⟩
    exact
      { open' := tableRefusal_eq_none.mpr fun hdirect => by
          rw [h] at hdirect
          cases hdirect
        serves := by rwa [missingNeeds_other h]
        willing := hwilling
        decodes := by simp [columnRefusal, h]
        able := operationBlocker_other h
        accepts := by rwa [exempted_other h]
        files := by simp [fileRefusal, hdeltars] }

theorem databricksOnly_engines (h : operation.databricksOnly = true)
    (hkind : kind ∈ operation.engines) : kind = .sql := by
  rw [of_decide_eq_true h] at hkind
  exact List.mem_singleton.mp hkind

theorem catalogLevelBlock_eq_none (hshared : table.isShared = false) :
    router.catalogLevelBlock S operation table = none ↔
      (table.isDelta S = false ∧ router.formatBlock S operation table = none) ∨
      (table.isDelta S = true ∧ ¬ (table.tableType ∈ queryDefined ∧ operation ∈ dataWrites) ∧
        ((table.unreadableView = true ∧ router.viewBlock S operation table = none) ∨
          (table.unreadableView = false ∧
            ¬ (operation ∈ appendOnlyForbids ∧ table.appendOnly S = true) ∧
            ¬ (present table.accessPolicy = true ∧ operation ∈ accessPolicyForbids) ∧
            router.reachBlock S operation table = none))) := by
  unfold Router.catalogLevelBlock
  rw [hshared]
  cases hdelta : table.isDelta S with
  | false => simp
  | true =>
    by_cases hquery : table.tableType ∈ queryDefined ∧ operation ∈ dataWrites
    · simp [hquery]
    · cases hview : table.unreadableView with
      | true => simp [hquery]
      | false =>
        by_cases hrows : operation ∈ appendOnlyForbids ∧ table.appendOnly S = true
        · simp [hquery, hrows]
        · by_cases hpolicy : present table.accessPolicy = true ∧ operation ∈ accessPolicyForbids
          · simp [hquery, hrows, hpolicy]
          · simp [hquery, hrows, hpolicy]

theorem databricksBlock_eq_none : router.databricksBlock S operation table = none ↔
    (operation.databricksOnly = true →
      ¬ (router.warehouseCatalog = false ∧ table.ref.kind = .catalog) ∧
      table.warehouseCanName S = true ∧ router.allowSqlFallback = true) := by
  unfold Router.databricksBlock
  simp only [refusal_eq_none, and_true]
  cases operation.databricksOnly with
  | false => simp
  | true => simp only [true_and, forall_const, Bool.not_eq_true, Bool.not_eq_false]

theorem reachBlock_eq_none : router.reachBlock S operation table = none ↔
    (router.sqlFallback = false → warehouseOnly S operation table = none ∧
      vendable operation table = true ∧ (operation ∉ noLogYet → table.openError = none)) ∧
    router.databricksBlock S operation table = none := by
  unfold Router.reachBlock
  simp only [refusal_eq_none]
  rw [vendable_iff]
  cases router.sqlFallback with
  | true => simp
  | false =>
    have hreason : ¬ (warehouseOnly S operation table).isSome = true ↔
        warehouseOnly S operation table = none := by
      rw [Bool.not_eq_true, Option.isSome_eq_false_iff, Option.isNone_iff_eq_none]
    have hwrites : ¬ (operation ∉ Operation.readOperations ∧
        table.externalWriteSupported = some false) ↔
        (operation ∉ Operation.readOperations → table.externalWriteSupported ≠ some false) :=
      not_and
    simp only [Bool.false_eq_true, not_false_eq_true, and_true, forall_const, hreason, hwrites,
      opened_iff, ne_eq, and_assoc]

theorem formatBlock_eq_none : router.formatBlock S operation table = none ↔
    (table.isIceberg S = true ∧ (router.engines .iceberg).isSome = true ∧
      present table.icebergRestUri = true) ∨ router.sqlFallback = true := by
  unfold Router.formatBlock
  by_cases hiceberg : table.isIceberg S = true ∧ (router.engines .iceberg).isSome = true ∧
      present table.icebergRestUri = true
  · simp [hiceberg]
  · cases router.sqlFallback with
    | true => simp
    | false =>
      simp only [hiceberg, if_false, Bool.false_eq_true, false_or, iff_false]
      split_ifs <;> exact not_false

theorem viewBlock_eq_none :
    router.viewBlock S operation table = none ↔ router.sqlFallback = true := by
  unfold Router.viewBlock
  cases router.sqlFallback with
  | true => exact iff_of_true rfl rfl
  | false => exact iff_of_false (Option.some_ne_none _) Bool.false_ne_true

theorem sqlFallback_workspace (h : router.sqlFallback = true) : router.warehouseCatalog = true := by
  simp only [Router.sqlFallback, Bool.and_eq_true] at h
  exact h.1.2

theorem sqlFallback_off (h : router.warehouseCatalog = false) : router.sqlFallback = false := by
  simp [Router.sqlFallback, h]

theorem catalogLevelBlock_withFallback
    (h : router.catalogLevelBlock S operation table = none) :
    (router.withFallback sql).catalogLevelBlock S operation table = none := by
  cases hshared : table.isShared with
  | true =>
    cases hsharing : router.engines .sharing with
    | none => exact absurd h (catalogLevelBlock_unshared hshared hsharing)
    | some sharing =>
      exact catalogLevelBlock_shared hshared ((withFallback_engines (by decide)).trans hsharing)
  | false =>
    rw [catalogLevelBlock_eq_none hshared] at h ⊢
    rcases h with ⟨hdelta, hformat⟩ | ⟨hdelta, hquery, ⟨hview, hblock⟩ |
      ⟨hview, hrows, hpolicy, hreach⟩⟩
    · refine .inl ⟨hdelta, ?_⟩
      rw [formatBlock_eq_none] at hformat ⊢
      refine hformat.imp (fun hiceberg => ?_) fun hfallback => ?_
      · rwa [withFallback_engines (by decide)]
      · exact withFallback_sqlFallback.trans (sqlFallback_workspace hfallback)
    · refine .inr ⟨hdelta, hquery, .inl ⟨hview, ?_⟩⟩
      rw [viewBlock_eq_none] at hblock ⊢
      exact withFallback_sqlFallback.trans (sqlFallback_workspace hblock)
    · refine .inr ⟨hdelta, hquery, .inr ⟨hview, hrows, hpolicy, ?_⟩⟩
      obtain ⟨hreached, hdatabricks⟩ := reachBlock_eq_none.mp hreach
      rw [databricksBlock_eq_none] at hdatabricks
      refine reachBlock_eq_none.mpr ⟨fun hoff => ?_, databricksBlock_eq_none.mpr fun honly => ?_⟩
      · rw [withFallback_sqlFallback] at hoff
        exact hreached (sqlFallback_off hoff)
      · obtain ⟨hcatalog, hname, -⟩ := hdatabricks honly
        exact ⟨hcatalog, hname, rfl⟩

theorem catalogOpen_of_block (hshared : table.isShared = false)
    (h : router.catalogLevelBlock S operation table = none) : CatalogOpen S operation table := by
  intro hdelta
  rcases (catalogLevelBlock_eq_none hshared).mp h with ⟨hnot, -⟩ | ⟨-, hquery, ⟨hview, -⟩ |
    ⟨-, hrows, hpolicy, -⟩⟩
  · rw [hdelta] at hnot
    cases hnot
  · exact ⟨hquery, .inl hview⟩
  · exact ⟨hquery, .inr ⟨hrows, hpolicy⟩⟩

theorem block_of_catalogOpen (hshared : table.isShared = false)
    (hworkspace : router.warehouseCatalog = true) (hopen : CatalogOpen S operation table)
    (hname : operation.databricksOnly = true → table.warehouseCanName S = true) :
    (router.withFallback sql).catalogLevelBlock S operation table = none := by
  have hfallback : (router.withFallback sql).sqlFallback = true :=
    withFallback_sqlFallback.trans hworkspace
  rw [catalogLevelBlock_eq_none hshared]
  cases hdelta : table.isDelta S with
  | false => exact .inl ⟨rfl, formatBlock_eq_none.mpr (.inr hfallback)⟩
  | true =>
    obtain ⟨hquery, hrest⟩ := hopen hdelta
    refine .inr ⟨rfl, hquery, ?_⟩
    cases hview : table.unreadableView with
    | true => exact .inl ⟨rfl, viewBlock_eq_none.mpr hfallback⟩
    | false =>
      obtain ⟨hrows, hpolicy⟩ := hrest.resolve_left (by rw [hview]; exact Bool.false_ne_true)
      refine .inr ⟨rfl, hrows, hpolicy, reachBlock_eq_none.mpr ⟨fun hoff => ?_, ?_⟩⟩
      · rw [hfallback] at hoff
        cases hoff
      · refine databricksBlock_eq_none.mpr fun honly => ⟨?_, hname honly, rfl⟩
        rintro ⟨hoff, -⟩
        rw [show (router.withFallback sql).warehouseCatalog = router.warehouseCatalog from rfl,
          hworkspace] at hoff
        cases hoff

theorem warehouseOnly_eq_none (hforeign : table.tableType ≠ some .foreign)
    (hhive : table.isUcHiveMetastore S = false)
    (hmanaged : operation ∈ catalogManagedAlterOps → table.isCatalogManaged S = false) :
    warehouseOnly S operation table = none := by
  unfold warehouseOnly
  simp only [refusal_eq_none, and_true]
  refine ⟨hforeign, by simp [hhive], ?_⟩
  rintro ⟨htrue, hmem⟩
  rw [hmanaged hmem] at htrue
  cases htrue

theorem tableRefusal_of_waived (hshared : table.isShared = false)
    (hblock : router.catalogLevelBlock S operation table ≠ none)
    (hwaived : (router.withFallback sql).catalogLevelBlock S operation table = none)
    (hkind : kind ∈ operation.engines) (hdirect : kind.direct = true) :
    tableRefusal S nativeHas operation table shape kind ≠ none := by
  intro hnone
  obtain ⟨hrefusal, -, hvendable⟩ := tableRefusal_eq_none.mp hnone hdirect
  rcases directRefusal_eq_none.mp hrefusal with hnot | ⟨hdelta, hview, hforeign, hhive, hmanaged,
    hopened⟩
  · rw [hshared] at hnot
    cases hnot
  · obtain ⟨hquery, hrest⟩ := catalogOpen_of_block hshared hwaived hdelta
    obtain ⟨hrows, hpolicy⟩ := hrest.resolve_left (by rw [hview]; exact Bool.false_ne_true)
    apply hblock
    refine (catalogLevelBlock_eq_none hshared).mpr
      (.inr ⟨hdelta, hquery,
        .inr ⟨hview, hrows, hpolicy, reachBlock_eq_none.mpr ⟨fun _ => ?_, ?_⟩⟩⟩)
    · exact ⟨warehouseOnly_eq_none hforeign hhive hmanaged, hvendable, hopened⟩
    · refine databricksBlock_eq_none.mpr fun honly => ?_
      rw [databricksOnly_engines honly hkind] at hdirect
      cases hdirect

theorem block_of_withFallback (hshared : table.isShared = false)
    (hworkspace : router.warehouseCatalog = false)
    (h : (router.withFallback sql).catalogLevelBlock S operation table = none)
    (hkind : kind ∈ operation.engines) (hsql : kind ≠ .sql) :
    router.catalogLevelBlock S operation table = none := by
  have hon : (router.withFallback sql).sqlFallback = false :=
    withFallback_sqlFallback.trans hworkspace
  have hoff := sqlFallback_off hworkspace
  rw [catalogLevelBlock_eq_none hshared] at h ⊢
  rcases h with ⟨hdelta, hformat⟩ | ⟨hdelta, hquery, ⟨hview, hblock⟩ | ⟨hview, hrows, hpolicy,
    hreach⟩⟩
  · refine .inl ⟨hdelta, ?_⟩
    rw [formatBlock_eq_none, hon, withFallback_engines (by decide)] at hformat
    rw [formatBlock_eq_none, hoff]
    exact hformat
  · rw [viewBlock_eq_none, hon] at hblock
    cases hblock
  · refine .inr ⟨hdelta, hquery, .inr ⟨hview, hrows, hpolicy, ?_⟩⟩
    obtain ⟨hreached, -⟩ := reachBlock_eq_none.mp hreach
    refine reachBlock_eq_none.mpr ⟨fun _ => hreached hon, databricksBlock_eq_none.mpr ?_⟩
    intro honly
    exact absurd (databricksOnly_engines honly hkind) hsql

theorem capability_ok_iff :
    (capability S nativeHas router operation table needs exclude shape).ok = true ↔
      (decideCapability S nativeHas router operation table needs exclude shape).ok = true := by
  rw [capability, scrubbed_ok]

theorem capability_withFallback (hoff : router.allowSqlFallback = false)
    (h : (capability S nativeHas router operation table needs exclude shape).ok = true) :
    (capability S nativeHas (router.withFallback sql) operation table needs exclude shape).ok =
      true := by
  rw [capability_ok_iff, decideCapability_ok_iff] at h ⊢
  obtain ⟨hblock, hrequest, hserved⟩ := h
  refine ⟨catalogLevelBlock_withFallback hblock, hrequest, ?_⟩
  rcases hserved with ⟨hshared, sharing, hsharing, haccepts⟩ | ⟨hshared, kind, hkind, hconsider⟩
  · exact .inl ⟨hshared, sharing, (withFallback_engines (by decide)).trans hsharing, haccepts⟩
  · refine .inr ⟨hshared, kind, hkind, ?_⟩
    have hsql : kind ≠ .sql := by
      rintro rfl
      exact consider_sql_off hoff hconsider
    rwa [consider_withFallback hsql]

theorem advised_refused
    (h : Advised S nativeHas router operation table needs exclude shape) :
    ¬ (capability S nativeHas router operation table needs exclude shape).ok = true := by
  rcases h with ⟨reason, remedy, hraised⟩ | ⟨hrefused, -⟩
  · intro hok
    simp only [engineFor, hok, if_true] at hraised
    split at hraised <;> cases hraised
  · rw [hrefused]
    exact Bool.false_ne_true

theorem consider_sql_withFallback :
    consider S nativeHas (router.withFallback sql) operation table needs exclude shape .sql =
        .ok () ↔
      .sql ∉ exclude ∧ (router.warehouseCatalog = true ∧ table.warehouseCanName S = true) ∧
        unmet sql needs = [] ∧ needsRefusal table needs sql = none ∧
        sql.supports operation table shape = .accepts := by
  rw [consider_ok_iff, sqlRefusal_eq_none]
  constructor
  · rintro ⟨hexclude, hnames, engine, hengine, hpassed⟩
    obtain rfl : sql = engine := Option.some.inj hengine
    exact ⟨hexclude, (hnames rfl).2, (passed_other_iff rfl).mp hpassed⟩
  · rintro ⟨hexclude, hnames, hpassed⟩
    exact ⟨hexclude, fun _ => ⟨rfl, hnames⟩, sql, rfl, (passed_other_iff rfl).mpr hpassed⟩

/-- A request refused without the fallback, with a warehouse that accepts it: where it is served
with the fallback on. -/
theorem withFallback_ok_iff
    (hrefused : ¬ (capability S nativeHas router operation table needs exclude shape).ok = true)
    (haccepts : sql.supports operation table shape = .accepts) :
    (capability S nativeHas (router.withFallback sql) operation table needs exclude shape).ok =
        true ↔
      FallbackServes S router sql operation table needs exclude shape := by
  rw [capability_ok_iff, decideCapability_ok_iff] at *
  constructor
  · rintro ⟨hblock, hrequest, ⟨hshared, sharing, hsharing, hserves⟩ | ⟨hshared, kind, hkind,
      hconsider⟩⟩
    · rw [withFallback_engines (by decide)] at hsharing
      exact absurd ⟨catalogLevelBlock_shared hshared hsharing, hrequest,
        .inl ⟨hshared, sharing, hsharing, hserves⟩⟩ hrefused
    · have hopen := catalogOpen_of_block hshared hblock
      by_cases hsql : kind = .sql
      · subst hsql
        obtain ⟨hexclude, ⟨hworkspace, hname⟩, hunmet, hwilling, -⟩ :=
          consider_sql_withFallback.mp hconsider
        exact
          { notShared := hshared
            request := hrequest
            workspace := hworkspace
            catalog := hopen
            engine := .inl ⟨hname, hkind, hexclude, hunmet, hwilling⟩ }
      · have hbefore : router.catalogLevelBlock S operation table ≠ none := by
          intro hnone
          rw [consider_withFallback hsql] at hconsider
          exact hrefused ⟨hnone, hrequest, .inr ⟨hshared, kind, hkind, hconsider⟩⟩
        obtain ⟨hexclude, -, engine, hengine, hpassed⟩ := consider_ok_iff.mp hconsider
        rw [withFallback_engines hsql] at hengine
        have hdirect : kind.direct = false := by
          by_contra hdirect
          exact tableRefusal_of_waived hshared hbefore hblock hkind (by simpa using hdirect)
            hpassed.open'
        obtain ⟨hunmet, hwilling, hserves⟩ := (passed_other_iff hdirect).mp hpassed
        have hworkspace : router.warehouseCatalog = true := by
          by_contra hnot
          exact hbefore (block_of_withFallback hshared (by simpa using hnot) hblock hkind hsql)
        have hother : kind ∈ [EngineKind.sharing, .iceberg] := by
          cases kind with
          | kernel | deltars => cases hdirect
          | sql => exact absurd rfl hsql
          | sharing | iceberg => decide
        exact
          { notShared := hshared
            request := hrequest
            workspace := hworkspace
            catalog := hopen
            engine := .inr ⟨kind, hother, engine, hengine, ⟨hkind, hexclude, hunmet, hwilling⟩,
              hserves⟩ }
  · intro h
    rcases h.engine with ⟨hname, htakes⟩ | ⟨kind, hother, engine, hengine, htakes, hserves⟩
    · refine ⟨block_of_catalogOpen h.notShared h.workspace h.catalog fun _ => hname, h.request,
        .inr ⟨h.notShared, .sql, htakes.serves, ?_⟩⟩
      exact consider_sql_withFallback.mpr ⟨htakes.notExcluded, ⟨h.workspace, hname⟩, htakes.meets,
        htakes.willing, haccepts⟩
    · have hsql : kind ≠ .sql := by
        rintro rfl
        exact absurd hother (by decide)
      have hdirect : kind.direct = false := by
        rcases List.mem_pair.mp hother with rfl | rfl <;> rfl
      refine ⟨block_of_catalogOpen h.notShared h.workspace h.catalog fun honly => ?_, h.request,
        .inr ⟨h.notShared, kind, htakes.serves, ?_⟩⟩
      · exact absurd (databricksOnly_engines honly htakes.serves) hsql
      · refine consider_ok_iff.mpr ⟨htakes.notExcluded, ?_, engine, ?_, ?_⟩
        · exact sqlRefusal_eq_none.mpr fun heq => absurd heq hsql
        · rw [withFallback_engines hsql, hengine]
        · exact (passed_other_iff hdirect).mpr ⟨htakes.meets, htakes.willing, hserves⟩

variable (S nativeHas router sql operation table needs exclude shape)

/-- Enabling the fallback takes nothing away; and the advice to enable it, with a warehouse that
accepts the operation, can be followed exactly where an engine behind the fallback is let serve. -/
theorem fallback_advice_iff (hoff : router.allowSqlFallback = false) :
    ((capability S nativeHas router operation table needs exclude shape).ok = true →
      (capability S nativeHas (router.withFallback sql) operation table needs exclude shape).ok =
        true) ∧
    (Advised S nativeHas router operation table needs exclude shape →
      sql.supports operation table shape = .accepts →
      ((capability S nativeHas (router.withFallback sql) operation table needs exclude shape).ok =
          true ↔
        FallbackServes S router sql operation table needs exclude shape)) :=
  ⟨capability_withFallback hoff, fun hadvised haccepts =>
    withFallback_ok_iff (advised_refused hadvised) haccepts⟩

/-- Engines that open the files and take no request for the plain table. -/
def refusingRouter : Router where
  engines kind := if kind.direct then some (plainEngine (.refuses "no" "") []) else none
  allowSqlFallback := false
  warehouseCatalog := true

theorem fallback_advice_iff_scan :
    (capability asciiStr (fun _ => true) (refusingRouter.withFallback (plainEngine .accepts []))
      .scan plainTable [] [] []).ok = true := by
  refine ((fallback_advice_iff asciiStr (fun _ => true) refusingRouter (plainEngine .accepts [])
    .scan plainTable [] [] [] rfl).2 ?_ rfl).mpr ?_
  · exact .inr (by decide +kernel)
  · exact
      { notShared := rfl
        request := by decide +kernel
        workspace := rfl
        catalog := fun _ => ⟨by decide, .inr ⟨by decide, by decide⟩⟩
        engine := .inl ⟨by decide +kernel, by decide, by decide, by decide, by decide⟩ }

/-- No warehouse lists a table's files; where the table is closed to outside readers the advice
to enable one is given all the same. -/
theorem fallback_advised_files :
    let table := { plainTable with externalReadSupported := some false }
    Advised asciiStr (fun _ => true) refusingRouter .files table [] [] [] ∧
      (plainEngine .accepts []).supports .files table [] = .accepts ∧
      (capability asciiStr (fun _ => true) (refusingRouter.withFallback (plainEngine .accepts []))
        .files table [] [] []).ok = false :=
  ⟨.inr (by decide +kernel), rfl, by decide +kernel⟩

end DeltaSwamp.Routing
