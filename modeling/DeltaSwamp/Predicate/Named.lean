import DeltaSwamp.Predicate.Filtered

/-!
# The columns a predicate names

`columns_of`, and that a predicate's filter and its truth depend on nothing else: two
tables that resolve those columns alike and hold the same values in them decide alike.
-/

namespace DeltaSwamp.Predicate

open Result

def Operand.column? : Operand → Option Column
  | .column c => some c
  | .literal _ => none

def Leaf.operands : Leaf → List Operand
  | .true | .false => []
  | .column c => [.column c]
  | .compare _ left right | .eqNullSafe left right => [left, right]
  | .isNull target | .isNotNull target => [target]
  | .inList target items _ => target :: items
  | .between target low high _ => [target, low, high]
  | .like target _ _ | .ilike target _ _ => [target]

/-- `columns_of` -/
def columnsOf : Node → List Column
  | .leaf l => l.operands.filterMap Operand.column?
  | .and args => args.flatMap columnsOf
  | .or args => args.flatMap columnsOf
  | .not arg => columnsOf arg

section
variable {env : Env} {schema schema' : Schema}

/-- A column that two schemas resolve alike. -/
def SameColumn (env : Env) (schema schema' : Schema) (c : Column) : Prop :=
  resolve env schema c = resolve env schema' c

/-- An operand whose column, if it is one, two schemas resolve alike. -/
def SameOperand (env : Env) (schema schema' : Schema) (o : Operand) : Prop :=
  ∀ c, o = .column c → SameColumn env schema schema' c

namespace Builder

variable {c : Column}

theorem column_congr (h : SameColumn env schema schema' c) :
    column env schema c = column env schema' c := by
  rw [column, column, h]

theorem single_congr {o : Operand} (h : SameOperand env schema schema' o) :
    single env schema o = single env schema' o := by
  cases o with
  | literal l => rfl
  | column c => rw [single, single, column_congr (h c rfl)]

variable {left right : Operand}

theorem pair_congr (hleft : SameOperand env schema schema' left)
    (hright : SameOperand env schema schema' right) :
    pair env schema left right = pair env schema' left right := by
  cases left with
  | literal l =>
    cases right with
    | literal r => rfl
    | column r => rw [pair, pair, pairLiteral, pairLiteral, column_congr (hright r rfl)]
  | column l =>
    cases right with
    | literal r => rw [pair, pair, pairLiteral, pairLiteral, column_congr (hleft l rfl)]
    | column r => rw [pair, pair, column_congr (hleft l rfl), column_congr (hright r rfl)]

theorem floating_congr (hleft : SameOperand env schema schema' left)
    (hright : SameOperand env schema schema' right) :
    floating env schema left right = floating env schema' left right := by
  cases left with
  | literal l =>
    cases right with
    | literal r => rfl
    | column r =>
      rw [floating, floating, floatingLiteral, floatingLiteral, column_congr (hright r rfl)]
  | column l =>
    cases right with
    | literal r =>
      rw [floating, floating, floatingLiteral, floatingLiteral, column_congr (hleft l rfl)]
    | column r => rw [floating, floating, column_congr (hleft l rfl), column_congr (hright r rfl)]

theorem compare_congr (hleft : SameOperand env schema schema' left)
    (hright : SameOperand env schema schema' right) (op : CmpOp) :
    compare env schema op left right = compare env schema' op left right := by
  rw [compare, compare, pair_congr hleft hright, floating_congr hleft hright]

theorem membership_congr {target : Operand} (h : SameOperand env schema schema' target)
    (items : List Operand) :
    membership env schema target items = membership env schema' target items := by
  cases target with
  | literal l => rfl
  | column c =>
    unfold membership
    cases items.mapM Operand.literal? with
    | none => rfl
    | some literals =>
      dsimp only
      rw [column_congr (h c rfl)]

theorem lookups_congr (h : SameColumn env schema schema' c) (literals : List Literal) :
    lookups env schema c literals = lookups env schema' c literals := by
  have hoperand : SameOperand env schema schema' (.column c) := by
    intro d hd
    cases hd
    exact h
  have hliteral : ∀ l, SameOperand env schema schema' (.literal l) := by
    rintro l d hd
    cases hd
  unfold lookups groupLookup
  rw [membership_congr hoperand]
  simp only [compare_congr hoperand (hliteral _)]

theorem buildLike_congr {target : Operand} (h : SameOperand env schema schema' target)
    (pattern : Text) (ignoreCase isNegated : Bool) :
    buildLike env schema target pattern ignoreCase isNegated =
      buildLike env schema' target pattern ignoreCase isNegated := by
  unfold buildLike
  rw [single_congr h]
  cases target with
  | literal l => rfl
  | column c =>
    dsimp only
    rw [column_congr (h c rfl)]

theorem buildLeaf_congr {l : Leaf} (h : ∀ o ∈ l.operands, SameOperand env schema schema' o) :
    buildLeaf env schema l = buildLeaf env schema' l := by
  cases l with
  | true | false => rfl
  | column c =>
    have hc : resolve env schema c = resolve env schema' c :=
      h (.column c) (by simp [Leaf.operands]) c rfl
    rw [buildLeaf, buildLeaf, hc]
  | compare op left right =>
    exact compare_congr (h left (by simp [Leaf.operands])) (h right (by simp [Leaf.operands])) op
  | eqNullSafe left right =>
    have hleft := h left (by simp [Leaf.operands])
    have hright := h right (by simp [Leaf.operands])
    rw [buildLeaf, buildLeaf, pair_congr hleft hright, compare_congr hleft hright]
  | isNull target | isNotNull target =>
    rw [buildLeaf, buildLeaf, single_congr (h target (by simp [Leaf.operands]))]
  | inList target items isNegated =>
    have htarget := h target (by simp [Leaf.operands])
    have hitems : items.map (fun item => compare env schema .eq target item) =
        items.map fun item => compare env schema' .eq target item :=
      List.map_congr_left fun item hitem =>
        compare_congr htarget (h item (by simp [Leaf.operands, hitem])) .eq
    rw [buildLeaf, buildLeaf, membership_congr htarget, hitems]
  | between target low high isNegated =>
    have htarget := h target (by simp [Leaf.operands])
    rw [buildLeaf, buildLeaf, compare_congr htarget (h low (by simp [Leaf.operands])),
      compare_congr htarget (h high (by simp [Leaf.operands]))]
  | like target pattern isNegated | ilike target pattern isNegated =>
    exact buildLike_congr (h target (by simp [Leaf.operands])) pattern _ isNegated

theorem key_of_groups {equalities : List (Column × Literal)} {group : Column × List Literal}
    (h : group ∈ groups equalities) : ∃ l, (group.1, l) ∈ equalities := by
  have hrun : ∀ d : Dict Column (List Literal),
      group ∈ equalities.foldl (fun d e => d.set e.1 ((d.get e.1).getD [] ++ [e.2])) d →
        (∃ l, (group.1, l) ∈ equalities) ∨ group ∈ d := by
    clear h
    induction equalities with
    | nil => exact fun d hd => Or.inr hd
    | cons e rest ih =>
      intro d hd
      obtain ⟨l, hl⟩ | hmem := ih _ hd
      · exact Or.inl ⟨l, List.mem_cons_of_mem _ hl⟩
      · obtain rfl | hmem := Dict.mem_set hmem
        · exact Or.inl ⟨e.2, List.mem_cons_self⟩
        · exact Or.inr hmem
  obtain hl | hnil := hrun [] h
  · exact hl
  · cases hnil

theorem equality_column {node : Node} {l : Literal} (h : node.equality = some (c, l)) :
    c ∈ columnsOf node := by
  unfold Node.equality at h
  split at h
  · cases h
    simp [columnsOf, Leaf.operands, Operand.column?]
  · cases h
    simp [columnsOf, Leaf.operands, Operand.column?]
  · cases h

theorem build_congr {node : Node} (h : ∀ c ∈ columnsOf node, SameColumn env schema schema' c) :
    build env schema node = build env schema' node := by
  induction node with
  | leaf l =>
    rw [build, build]
    apply buildLeaf_congr
    rintro o ho c rfl
    refine h c ?_
    rw [columnsOf, List.mem_filterMap]
    exact ⟨.column c, ho, rfl⟩
  | and args ih =>
    have hargs : args.map (build env schema) = args.map (build env schema') :=
      List.map_congr_left fun a ha =>
        ih a ha fun c hc => h c (by rw [columnsOf]; exact List.mem_flatMap.mpr ⟨a, ha, hc⟩)
    rw [build, build, hargs]
  | or args ih =>
    have hmem : ∀ a ∈ args, ∀ c ∈ columnsOf a, SameColumn env schema schema' c := by
      intro a ha c hc
      exact h c (by rw [columnsOf]; exact List.mem_flatMap.mpr ⟨a, ha, hc⟩)
    have hargs : args.map (fun arg => (arg, build env schema arg)) =
        args.map fun arg => (arg, build env schema' arg) :=
      List.map_congr_left fun a ha => by rw [ih a ha (hmem a ha)]
    have hgroups : ∀ children : List (Node × Except PredicateError Expr),
        (∀ child ∈ children, child.1 ∈ args) →
          disjuncts env schema children = disjuncts env schema' children := by
      intro children hchildren
      have hlookups : ((groups (children.filterMap fun child => child.1.equality)).map
          fun group => lookups env schema group.1 group.2) =
          (groups (children.filterMap fun child => child.1.equality)).map
            fun group => lookups env schema' group.1 group.2 := by
        refine List.map_congr_left fun group hgroup => ?_
        obtain ⟨l, hl⟩ := key_of_groups hgroup
        obtain ⟨child, hchild, heq⟩ := List.mem_filterMap.mp hl
        exact lookups_congr (hmem _ (hchildren child hchild) _ (equality_column heq)) _
      unfold disjuncts
      dsimp only
      rw [hlookups]
    rw [build, build, hargs, hgroups]
    intro child hchild
    obtain ⟨a, ha, rfl⟩ := List.mem_map.mp hchild
    exact ha
  | not a ih =>
    rw [build, build, ih fun c hc => h c (by rw [columnsOf]; exact hc)]

end Builder

variable {row : Row env.lower schema} {row' : Row env.lower schema'}

/-- A column that two schemas resolve alike, with one value in two rows. -/
structure SameValue (row : Row env.lower schema) (row' : Row env.lower schema') (c : Column) :
    Prop where
  resolved : SameColumn env schema schema' c
  value : ∀ path type, resolve env schema c = .ok (path, type) → row.get path = row'.get path

def SameOperandValue (row : Row env.lower schema) (row' : Row env.lower schema') (o : Operand) :
    Prop :=
  ∀ c, o = .column c → SameValue row row' c

theorem operandValue_congr {o : Operand} (h : SameOperandValue row row' o) :
    operandValue env schema row o = operandValue env schema' row' o := by
  cases o with
  | literal l => rfl
  | column c =>
    obtain ⟨hresolve, hvalue⟩ := h c rfl
    unfold operandValue
    dsimp only
    rw [← hresolve]
    cases hc : resolve env schema c with
    | error e => rfl
    | ok found => exact hvalue found.1 found.2 hc

theorem SameValue.found {c : Column} (h : SameValue row row' c) :
    (∃ e, resolve env schema c = .error e ∧ resolve env schema' c = .error e) ∨
      ∃ path type, resolve env schema c = .ok (path, type) ∧
        resolve env schema' c = .ok (path, type) ∧ row.get path = row'.get path := by
  have hresolve : resolve env schema c = resolve env schema' c := h.resolved
  cases hc : resolve env schema c with
  | error e => exact Or.inl ⟨e, rfl, hresolve ▸ hc⟩
  | ok found => exact Or.inr ⟨found.1, found.2, rfl, hresolve ▸ hc, h.value _ _ hc⟩

theorem operandValues_congr {left right : Operand} (hleft : SameOperandValue row row' left)
    (hright : SameOperandValue row row' right) :
    operandValues env schema row left right = operandValues env schema' row' left right := by
  cases left with
  | literal l =>
    cases right with
    | literal r => rfl
    | column r =>
      obtain ⟨e, he, he'⟩ | ⟨path, type, hr, hr', hget⟩ := (hright r rfl).found
      · rw [operandValues, operandValues, he, he']
        rfl
      · rw [operandValues, operandValues, hr, hr', ok_bind, ok_bind, hget]
  | column l =>
    obtain ⟨e, he, he'⟩ | ⟨path, type, hl, hl', hget⟩ := (hleft l rfl).found
    · cases right with
      | literal r =>
        rw [operandValues, operandValues, he, he']
        rfl
      | column r =>
        rw [operandValues, operandValues, he, he']
        rfl
    · cases right with
      | literal r => rw [operandValues, operandValues, hl, hl', ok_bind, ok_bind, hget]
      | column r =>
        rw [operandValues, operandValues, hl, hl', ok_bind, ok_bind, hget]
        obtain ⟨e, he, he'⟩ | ⟨path, type, hr, hr', hget⟩ := (hright r rfl).found
        · rw [he, he']
          rfl
        · rw [hr, hr', ok_bind, ok_bind, hget]

theorem compareTruth_congr {left right : Operand} (hleft : SameOperandValue row row' left)
    (hright : SameOperandValue row row' right) (op : CmpOp) :
    compareTruth env schema row op left right = compareTruth env schema' row' op left right := by
  rw [compareTruth, compareTruth, operandValues_congr hleft hright]

theorem textTruth_congr {target : Operand} (h : SameOperandValue row row' target) :
    textTruth env schema row target = textTruth env schema' row' target := by
  unfold textTruth
  rw [operandValue_congr h]
  cases operandValue env schema' row' target with
  | none => cases target <;> rfl
  | some v =>
    cases target with
    | literal l => cases v <;> rfl
    | column c =>
      have hresolve : resolve env schema c = resolve env schema' c := (h c rfl).resolved
      cases v with
      | text s => rfl
      | bool | num | float | bytes | time | nested =>
        dsimp only
        rw [hresolve]

theorem leafTruth_congr {l : Leaf} (h : ∀ o ∈ l.operands, SameOperandValue row row' o) :
    leafTruth env schema row l = leafTruth env schema' row' l := by
  cases l with
  | true | false => rfl
  | column c =>
    have hvalue := operandValue_congr (h (.column c) (by simp [Leaf.operands]))
    rw [leafTruth, leafTruth, hvalue]
  | compare op left right =>
    exact compareTruth_congr (h left (by simp [Leaf.operands]))
      (h right (by simp [Leaf.operands])) op
  | eqNullSafe left right =>
    have hvalues := operandValues_congr (h left (by simp [Leaf.operands]))
      (h right (by simp [Leaf.operands]))
    rw [leafTruth, leafTruth, eqNullSafeTruth, eqNullSafeTruth, hvalues]
  | isNull target | isNotNull target =>
    rw [leafTruth, leafTruth, operandValue_congr (h target (by simp [Leaf.operands]))]
  | inList target items isNegated =>
    have hitems : items.map (compareTruth env schema row .eq target) =
        items.map (compareTruth env schema' row' .eq target) :=
      List.map_congr_left fun item hitem =>
        compareTruth_congr (h target (by simp [Leaf.operands]))
          (h item (by simp [Leaf.operands, hitem])) .eq
    rw [leafTruth, leafTruth, hitems]
  | between target low high isNegated =>
    have htarget := h target (by simp [Leaf.operands])
    rw [leafTruth, leafTruth, compareTruth_congr htarget (h low (by simp [Leaf.operands])),
      compareTruth_congr htarget (h high (by simp [Leaf.operands]))]
  | like target pattern isNegated | ilike target pattern isNegated =>
    rw [leafTruth, leafTruth, textTruth_congr (h target (by simp [Leaf.operands]))]

theorem truth_congr {node : Node} (h : ∀ c ∈ columnsOf node, SameValue row row' c) :
    truth env schema row node = truth env schema' row' node := by
  induction node with
  | leaf l =>
    rw [truth, truth]
    apply leafTruth_congr
    rintro o ho c rfl
    refine h c ?_
    rw [columnsOf, List.mem_filterMap]
    exact ⟨.column c, ho, rfl⟩
  | and args ih =>
    have hargs : args.map (truth env schema row) = args.map (truth env schema' row') :=
      List.map_congr_left fun a ha =>
        ih a ha fun c hc => h c (by rw [columnsOf]; exact List.mem_flatMap.mpr ⟨a, ha, hc⟩)
    rw [truth, truth, hargs]
  | or args ih =>
    have hargs : args.map (truth env schema row) = args.map (truth env schema' row') :=
      List.map_congr_left fun a ha =>
        ih a ha fun c hc => h c (by rw [columnsOf]; exact List.mem_flatMap.mpr ⟨a, ha, hc⟩)
    rw [truth, truth, hargs]
  | not a ih => rw [truth, truth, ih fun c hc => h c (by rw [columnsOf]; exact hc)]

end

theorem filter_one {α : Type} {p : α → Bool} {xs : List α} (hnodup : xs.Nodup) {x : α}
    (hx : x ∈ xs) (h : ∀ y ∈ xs, p y = true ↔ y = x) : xs.filter p = [x] := by
  induction xs with
  | nil => cases hx
  | cons y xs ih =>
    rw [List.nodup_cons] at hnodup
    by_cases hy : y = x
    · subst hy
      have hnone : xs.filter p = [] := by
        rw [List.filter_eq_nil_iff]
        intro z hz hp
        exact hnodup.1 ((h z (List.mem_cons_of_mem _ hz)).mp hp ▸ hz)
      rw [List.filter_cons_of_pos ((h y List.mem_cons_self).mpr rfl), hnone]
    · have hrest : x ∈ xs := (List.mem_cons.mp hx).resolve_left (Ne.symm hy)
      have hp : ¬ p y = true := fun hp => hy ((h y List.mem_cons_self).mp hp)
      rw [List.filter_cons_of_neg hp]
      exact ih hnodup.2 hrest fun z hz => h z (List.mem_cons_of_mem _ hz)

/-- Where no two names differ by case only, a name is resolved to the one it differs from by case at
most. -/
theorem resolve_unique {env : Env} {schema : Schema}
    (hdistinct : (schema.map fun f => env.lower f.1).Nodup) {name part : Text} {type : Ty}
    (hmem : (name, type) ∈ schema) (hlower : env.lower part = env.lower name) :
    resolve env schema ⟨[part]⟩ = .ok ([name], type) := by
  have hsame : ∀ f ∈ schema, env.lower f.1 = env.lower part → f = (name, type) :=
    fun f hf heq => List.inj_on_of_nodup_map hdistinct hf hmem (heq.trans hlower)
  have hcase : schema.filter (fun f => env.lower f.1 = env.lower part) = [(name, type)] := by
    apply filter_one (hdistinct.of_map _) hmem
    intro f hf
    rw [decide_eq_true_eq]
    exact ⟨hsame f hf, fun heq => heq ▸ hlower.symm⟩
  have hmatching : matching env.lower schema part = [(name, type)] := by
    unfold matching
    dsimp only
    split_ifs with hexact
    · exact hcase
    · rw [List.isEmpty_iff, List.filter_eq_nil_iff] at hexact
      push Not at hexact
      obtain ⟨f, hf, hspelled⟩ := hexact
      have hpart : part = name := by
        rw [decide_eq_true_eq] at hspelled
        rw [← hspelled, hsame f hf (by rw [hspelled])]
      apply filter_one (hdistinct.of_map _) hmem
      intro g hg
      rw [decide_eq_true_eq]
      exact ⟨fun heq => hsame g hg (by rw [heq]), fun heq => heq ▸ hpart.symm⟩
  rw [resolve, resolvePath, hmatching]
  rfl

end DeltaSwamp.Predicate
