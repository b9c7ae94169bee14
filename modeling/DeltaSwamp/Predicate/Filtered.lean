import DeltaSwamp.Predicate.Membership

/-!
# The row filter is the predicate

What is built of a node has the node's three-valued truth on every row:
regrouping an OR by column and folding children into a tree change nothing.
-/

namespace DeltaSwamp.Predicate

open Result List

theorem collect_map {α β γ : Type} {xs : List β} {f : β → Except PredicateError α} {ys : List α}
    (h : collect (xs.map f) = .ok ys) {g : α → γ} {k : β → γ}
    (hstep : ∀ x ∈ xs, ∀ y, f x = .ok y → g y = k x) : ys.map g = xs.map k := by
  induction xs generalizing ys with
  | nil =>
    cases h
    rfl
  | cons x xs ih =>
    obtain ⟨y, hx, h⟩ := bind_eq_ok_iff.mp h
    obtain ⟨rest, hrest, h⟩ := bind_eq_ok_iff.mp h
    cases h
    rw [map_cons, map_cons, hstep x (by simp) y hx,
      ih hrest fun x hx => hstep x (mem_cons_of_mem _ hx)]

section
variable {env : Env} {schema : Schema} (row : Row env.lower schema)

variable {items : List Expr} {e : Expr}

theorem fold_eval {combine : Expr → Expr → Expr} {f : Truth → Truth → Truth} [Std.Associative f]
    {unit : Truth} (hunit : ∀ v, f v unit = v)
    (hcombine : ∀ x y, (combine x y).eval env row.get = f (x.eval env row.get) (y.eval env row.get))
    (h : fold combine items = .ok e) :
    e.eval env row.get = (items.map fun item => item.eval env row.get).foldr f unit := by
  unfold fold at h
  split at h
  · rename_i t ht
    cases h
    have hstep : ∀ x y v w, x.eval env row.get = v → y.eval env row.get = w →
        (combine x y).eval env row.get = f v w := by
      rintro x y v w rfl rfl
      exact hcombine x y
    refine balanced_rel hstep hunit ht ?_
    rw [forall₂_map_right_iff]
    exact forall₂_same.mpr fun _ _ => rfl
  · cases h

theorem fold_and (h : fold .and items = .ok e) :
    e.eval env row.get = Truth.all (items.map fun item => item.eval env row.get) :=
  fold_eval row (fun v => by rcases v with _ | _ | _ <;> rfl) (fun _ _ => rfl) h

theorem fold_or (h : fold .or items = .ok e) :
    e.eval env row.get = Truth.any (items.map fun item => item.eval env row.get) :=
  fold_eval row (fun v => by rcases v with _ | _ | _ <;> rfl) (fun _ _ => rfl) h

end

theorem mem_groups (equalities : List (Column × Literal)) (c : Column) (l : Literal) :
    (∃ ls, (c, ls) ∈ groups equalities ∧ l ∈ ls) ↔ (c, l) ∈ equalities := by
  have hrun : ∀ d : Dict Column (List Literal), (d.map Prod.fst).Nodup →
      ((equalities.foldl (fun d e => d.set e.1 ((d.get e.1).getD [] ++ [e.2])) d).map
        Prod.fst).Nodup ∧
      (l ∈ (Dict.get (equalities.foldl (fun d e => d.set e.1 ((d.get e.1).getD [] ++ [e.2])) d)
        c).getD [] ↔ l ∈ (d.get c).getD [] ∨ (c, l) ∈ equalities) := by
    induction equalities with
    | nil =>
      intro d hd
      simpa using hd
    | cons e rest ih =>
      intro d hd
      obtain ⟨hnodup, hmem⟩ := ih (d.set e.1 ((d.get e.1).getD [] ++ [e.2])) (Dict.nodup_set hd _ _)
      refine ⟨hnodup, hmem.trans ?_⟩
      rw [Dict.get_set]
      by_cases hc : c = e.1
      · subst hc
        simp [Prod.ext_iff, or_assoc, eq_comm]
      · simp [hc, Prod.ext_iff]
  obtain ⟨hnodup, hmem⟩ := hrun [] (by simp)
  have hget : ∀ ls, (c, ls) ∈ groups equalities ↔ (groups equalities).get c = some ls :=
    fun ls => ⟨Dict.get_of_mem hnodup, Dict.mem_of_get⟩
  simp only [hget]
  unfold groups
  rw [show (c, l) ∈ equalities ↔ _ from (hmem.trans (by simp [Dict.get])).symm]
  cases Dict.get (equalities.foldl (fun d e => d.set e.1 ((d.get e.1).getD [] ++ [e.2])) []) c with
  | none => simp
  | some ls => simp

namespace Builder

section
variable {env : Env} {schema : Schema} (row : Row env.lower schema)

theorem negated_eval (isNegated : Bool) (e : Expr) :
    (negated isNegated e).eval env row.get = negate isNegated (e.eval env row.get) := by
  cases isNegated <;> rfl

variable {c : Column}

theorem lookups_eval {literals : List Literal} {es : List Expr}
    (h : lookups env schema c literals = .ok es) :
    Truth.any (es.map fun e => e.eval env row.get) =
      Truth.any (literals.map (equalityTruth row c)) := by
  unfold lookups at h
  obtain ⟨found, hfound, h⟩ := bind_eq_ok_iff.mp h
  cases found with
  | some lookup =>
    cases h
    unfold groupLookup at hfound
    split_ifs at hfound with hlength
    · have hne : literals.map Operand.literal ≠ [] := by
        intro hnil
        simp only [map_eq_nil_iff] at hnil
        simp [hnil] at hlength
      rw [map_singleton, Truth.any_singleton, membership_eval row hne hfound, map_map]
      rfl
    · cases hfound
  | none =>
    rw [collect_map h]
    intro l _ e he
    exact compare_eval row he

theorem truth_equality {node : Node} {l : Literal} (h : node.equality = some (c, l)) :
    truth env schema row node = equalityTruth row c l := by
  unfold Node.equality at h
  split at h
  · cases h
    rw [truth]
    rfl
  · cases h
    rw [truth]
    exact compareTruth_comm row c l
  · cases h

theorem disjuncts_eval {args : List Node} {f : Node → Except PredicateError Expr} {es : List Expr}
    (hf : ∀ a ∈ args, ∀ e, f a = .ok e → e.eval env row.get = truth env schema row a)
    (h : disjuncts env schema (args.map fun a => (a, f a)) = .ok es) :
    Truth.any (es.map fun e => e.eval env row.get) =
      Truth.any (args.map (truth env schema row)) := by
  unfold disjuncts at h
  obtain ⟨rest, hrest, h⟩ := bind_eq_ok_iff.mp h
  obtain ⟨found, hfound, h⟩ := bind_eq_ok_iff.mp h
  rw [pure_eq_ok_iff] at h
  subst h
  rw [filter_map, map_map] at hrest
  rw [filterMap_map] at hfound
  have hothers : (rest.map fun e => e.eval env row.get) =
      (args.filter fun a => a.equality.isNone).map (truth env schema row) :=
    collect_map hrest fun a ha e he => hf a (mem_of_mem_filter ha) e he
  have hgroups : (found.map fun es => Truth.any (es.map fun e => e.eval env row.get)) =
      (groups (args.filterMap Node.equality)).map fun group =>
        Truth.any (group.2.map (equalityTruth row group.1)) :=
    collect_map hfound fun group _ es hes => lookups_eval row hes
  have hflat : Truth.any (found.flatten.map fun e => e.eval env row.get) =
      Truth.any ((groups (args.filterMap Node.equality)).flatMap fun group =>
        group.2.map (equalityTruth row group.1)) := by
    rw [map_flatten, Truth.any_flatten, map_map]
    rw [show List.map (Truth.any ∘ List.map fun e : Expr => e.eval env row.get) found = _ from
      hgroups]
    rw [flatMap_def, Truth.any_flatten, map_map]
    rfl
  rw [map_append, Truth.any_append, hothers, hflat, ← Truth.any_append]
  apply Truth.any_congr_mem
  intro v
  simp only [mem_append, mem_map, mem_filter, mem_flatMap]
  constructor
  · rintro (⟨a, ⟨ha, -⟩, rfl⟩ | ⟨⟨c, ls⟩, hgroup, l, hl, rfl⟩)
    · exact ⟨a, ha, rfl⟩
    · obtain ⟨a, ha, heq⟩ := mem_filterMap.mp ((mem_groups _ c l).mp ⟨ls, hgroup, hl⟩)
      exact ⟨a, ha, truth_equality row heq⟩
  · rintro ⟨a, ha, rfl⟩
    cases heq : a.equality with
    | none => exact .inl ⟨a, ⟨ha, by simp [heq]⟩, rfl⟩
    | some equality =>
      obtain ⟨c, l⟩ := equality
      obtain ⟨ls, hgroup, hl⟩ := (mem_groups _ c l).mpr (mem_filterMap.mpr ⟨a, ha, heq⟩)
      exact .inr ⟨(c, ls), hgroup, l, hl, (truth_equality row heq).symm⟩

theorem single_eval {target : Operand} {term : Term} (h : single env schema target = .ok term) :
    term.eval env row.get = operandValue env schema row target := by
  cases target with
  | column c =>
    unfold single at h
    obtain ⟨⟨term', type⟩, hcolumn, h⟩ := bind_eq_ok_iff.mp h
    obtain ⟨path, hc, rfl⟩ := column_eq_ok hcolumn
    cases h
    simp only [operandValue, hc]
    rfl
  | literal l =>
    obtain ⟨v, hv, rfl, -⟩ := single_literal h
    simp only [operandValue, hv]
    rfl

variable {e : Expr}

theorem eqNullSafe_eval {left right : Operand}
    (h : buildLeaf env schema (.eqNullSafe left right) = .ok e) :
    e.eval env row.get = eqNullSafeTruth env schema row left right := by
  unfold buildLeaf at h
  obtain ⟨⟨a, b⟩, hpair, h⟩ := bind_eq_ok_iff.mp h
  obtain ⟨equal, hequal, h⟩ := bind_eq_ok_iff.mp h
  cases h
  have hcompare := compare_eval row hequal
  unfold compare at hequal
  obtain ⟨⟨a', b'⟩, hpair', hequal⟩ := bind_eq_ok_iff.mp hequal
  obtain ⟨float, hfloat, -⟩ := bind_eq_ok_iff.mp hequal
  obtain ⟨v, w, hpaired⟩ := pair_spec row hpair hfloat
  rw [compareTruth, hpaired.values] at hcompare
  simp only [Expr.eval, hpaired.leftNull, hpaired.rightNull, hcompare, eqNullSafeTruth,
    hpaired.values]
  cases v with
  | none => cases w <;> rfl
  | some v =>
    cases w with
    | none => rfl
    | some w =>
      change Truth.coalesce (compareValues env .eq (some v) (some w)) (some false) =
        some (decide (compareValues env .eq (some v) (some w) = some true))
      rcases compareValues env .eq (some v) (some w) with _ | _ | _ <;> rfl

theorem columnText_eval {path : List Text} {type : Ty} {subject : Term} {pattern : Text}
    {ignoreCase : Bool} (hc : resolve env schema c = .ok (path, type))
    (hvalue : subject.eval env row.get = operandValue env schema row (.column c)) :
    (Expr.matchLike (if type.isText then subject else .castText type subject) pattern
        ignoreCase).eval env row.get =
      (textTruth env schema row (.column c)).map fun s =>
        if ignoreCase then env.ilike s pattern else like s pattern := by
  have hget : operandValue env schema row (.column c) = row.get path := by
    simp only [operandValue, hc]
  rw [hget] at hvalue
  simp only [Expr.eval, textTruth, hget]
  cases type with
  | struct | nested =>
    rw [if_neg (by simp [Ty.isText])]
    cases hv : row.get path with
    | none => rfl
    | some v =>
      have hnested : v = .nested := by
        simpa [Ty.holds] using column_typed row hc hv
      subst hnested
      simp only [hc]
      rfl
  | prim t =>
    cases htext : t.isText with
    | true =>
      rw [if_pos (show (Ty.prim t).isText = true from htext), hvalue]
      cases hv : row.get path with
      | none => rfl
      | some v =>
        have hholds : v.hasType t = true := column_typed row hc hv
        cases v with
        | text s => rfl
        | bool | num | float | bytes | time | nested =>
          cases t <;> simp_all [Prim.isText, Value.hasType]
    | false =>
      rw [if_neg (show ¬ (Ty.prim t).isText = true from by simp [Ty.isText, htext])]
      simp only [Term.eval, hvalue]
      cases hv : row.get path with
      | none => rfl
      | some v =>
        have hholds : v.hasType t = true := column_typed row hc hv
        cases v with
        | text s => cases t <;> simp_all [Prim.isText, Value.hasType]
        | bool | num | float | bytes | time | nested =>
          simp only [Option.bind_some, hc]
          cases env.castText t _ <;> rfl

theorem like_eval {target : Operand} {pattern : Text} {ignoreCase isNegated : Bool}
    (h : buildLike env schema target pattern ignoreCase isNegated = .ok e) :
    e.eval env row.get = negate isNegated ((textTruth env schema row target).map fun s =>
      if ignoreCase then env.ilike s pattern else like s pattern) := by
  unfold buildLike at h
  obtain ⟨subject, hsubject, h⟩ := bind_eq_ok_iff.mp h
  have hvalue := single_eval row hsubject
  cases target with
  | literal l =>
    cases h
    rw [negated_eval]
    simp only [Expr.eval, hvalue]
    unfold textTruth
    rcases operandValue env schema row (.literal l) with _ | _ | _ | _ | _ | _ | _ | _ <;> rfl
  | column c =>
    obtain ⟨⟨term, type⟩, hcolumn, h⟩ := bind_eq_ok_iff.mp h
    obtain ⟨path, hc, rfl⟩ := column_eq_ok hcolumn
    cases h
    rw [negated_eval]
    congr 1
    exact columnText_eval row hc hvalue

/-- A leaf is built as what it means. -/
theorem buildLeaf_eval {l : Leaf} (h : buildLeaf env schema l = .ok e) :
    e.eval env row.get = leafTruth env schema row l := by
  cases l with
  | true | false =>
    cases h
    rfl
  | column c =>
    obtain ⟨⟨path, type⟩, hc, h⟩ := bind_eq_ok_iff.mp h
    dsimp only at h
    split_ifs at h
    · cases h
      simp only [leafTruth, operandValue, hc, Expr.eval]
      rfl
  | compare op left right => exact compare_eval row h
  | eqNullSafe left right => exact eqNullSafe_eval row h
  | isNull target =>
    obtain ⟨term, hterm, h⟩ := bind_eq_ok_iff.mp h
    cases h
    simp only [Expr.eval, single_eval row hterm]
    rfl
  | isNotNull target =>
    obtain ⟨term, hterm, h⟩ := bind_eq_ok_iff.mp h
    cases h
    simp only [Expr.eval, single_eval row hterm]
    rfl
  | inList target items isNegated =>
    obtain ⟨lookup, hlookup, h⟩ := bind_eq_ok_iff.mp h
    simp only [leafTruth]
    split_ifs with hempty
    · subst hempty
      cases lookup with
      | some lookup =>
        cases h
        rw [negated_eval, membership_nil row hlookup]
      | none =>
        have hnil : fold .or [] = .error .empty := by simp [fold, balanced]
        simp only [map_nil, collect, ok_bind, hnil] at h
        cases h
    · cases lookup with
      | some lookup =>
        cases h
        rw [negated_eval, membership_eval row hempty hlookup]
      | none =>
        obtain ⟨clauses, hclauses, h⟩ := bind_eq_ok_iff.mp h
        obtain ⟨joined, hjoined, h⟩ := bind_eq_ok_iff.mp h
        cases h
        rw [negated_eval, fold_or row hjoined]
        exact congrArg (fun vs => negate isNegated (Truth.any vs))
          (collect_map hclauses fun item _ e he => compare_eval row he)
  | between target low high isNegated =>
    obtain ⟨atLeast, hlow, h⟩ := bind_eq_ok_iff.mp h
    obtain ⟨atMost, hhigh, h⟩ := bind_eq_ok_iff.mp h
    cases h
    rw [negated_eval]
    simp only [Expr.eval, compare_eval row hlow, compare_eval row hhigh]
    rfl
  | like target pattern isNegated => exact like_eval row h
  | ilike target pattern isNegated => exact like_eval row h

/-- What is built of a node has the node's truth, on every row. -/
theorem build_eval {node : Node} {e : Expr} (h : build env schema node = .ok e) :
    e.eval env row.get = truth env schema row node := by
  induction node generalizing e with
  | leaf l =>
    rw [build] at h
    rw [truth]
    exact buildLeaf_eval row h
  | and args ih =>
    rw [build] at h
    rw [truth]
    obtain ⟨built, hbuilt, h⟩ := bind_eq_ok_iff.mp h
    rw [fold_and row h, collect_map hbuilt fun a ha e he => ih a ha he]
  | or args ih =>
    rw [build] at h
    rw [truth]
    obtain ⟨built, hbuilt, h⟩ := bind_eq_ok_iff.mp h
    rw [fold_or row h, disjuncts_eval row (fun a ha e he => ih a ha he) hbuilt]
  | not a ih =>
    rw [build] at h
    rw [truth]
    obtain ⟨built, hbuilt, h⟩ := bind_eq_ok_iff.mp h
    cases h
    simp only [Expr.eval, ih hbuilt]

end

/-- Parsers and casts that know ASCII letters and equal types. -/
def asciiEnv : Env where
  lower s := s.map Char.toLower
  strip s := s
  digit := Char.isDigit
  decimal _ := none
  parseDate _ := none
  parseDatetime _ := none
  round q := .fin q
  round_ne_nan _ := by simp
  zoneName _ := []
  cast scalar type := if scalar.type = type then some scalar else none
  castText _ _ := none
  ilike s pattern := like (s.map Char.toLower) (pattern.map Char.toLower)
  takes _ _ := .ok true

def zeroSchema : Schema := [(['x'], .prim .float64)]

theorem matching_zeroSchema (name : Text) :
    matching asciiEnv.lower zeroSchema name = [] ∨
      matching asciiEnv.lower zeroSchema name = zeroSchema := by
  unfold matching zeroSchema
  by_cases h : ['x'] = name <;> by_cases h' : asciiEnv.lower ['x'] = asciiEnv.lower name <;>
    simp [h, h']

/-- `-0.0` in a DOUBLE column. -/
def zeroRow : Row asciiEnv.lower zeroSchema where
  get path := if path = [['x']] then some (.float .negZero) else none
  typed := by
    intro path spelled t v hpath hv
    split_ifs at hv with hspelled
    cases hv
    match path with
    | [] => cases hpath
    | [name] =>
      rw [resolvePath] at hpath
      rcases matching_zeroSchema name with h | h
      · rw [h] at hpath
        cases hpath
      · rw [h] at hpath
        cases hpath
        rfl
    | name :: next :: rest =>
      rw [resolvePath] at hpath
      rcases matching_zeroSchema name with h | h
      · rw [h] at hpath
        cases hpath
      · rw [h] at hpath
        cases hpath

/-- `NOT (X < 0.0) AND (x = 0.0 OR NaN = x)` -/
def zeroNode : Node :=
  .and [
    .not (.leaf (.compare .lt (.column ⟨[['X']]⟩) (.literal (.double (.fin 0))))),
    .or [
      .leaf (.compare .eq (.column ⟨[['x']]⟩) (.literal (.double (.fin 0)))),
      .leaf (.compare .eq (.literal (.double .nan)) (.column ⟨[['x']]⟩))]]

def zeroFilter : Expr :=
  .and (.not (floatLt (.field [['x']]) (.scalar (some (.float (.fin 0))))))
    (isInLookup (.field [['x']]) [.float (.fin 0), .float .nan, .float (.fin 0), .float .negZero]
      false)

theorem build_zeroNode : build asciiEnv zeroSchema zeroNode = .ok zeroFilter := by
  have hbelow : buildLeaf asciiEnv zeroSchema
      (.compare .lt (.column ⟨[['X']]⟩) (.literal (.double (.fin 0)))) =
      .ok (floatLt (.field [['x']]) (.scalar (some (.float (.fin 0))))) := rfl
  have hlookup : lookups asciiEnv zeroSchema ⟨[['x']]⟩ [.double (.fin 0), .double .nan] =
      .ok [isInLookup (.field [['x']])
        [.float (.fin 0), .float .nan, .float (.fin 0), .float .negZero] false] := rfl
  have hgroups : groups [(⟨[['x']]⟩, .double (.fin 0)), (⟨[['x']]⟩, .double .nan)] =
      [(⟨[['x']]⟩, [.double (.fin 0), .double .nan])] := rfl
  simp [zeroNode, build, collect, ok_bind, hbelow, disjuncts, Node.equality, hgroups, hlookup,
    fold, balanced, zeroFilter, pairUp]

theorem build_eval_zero : zeroFilter.eval asciiEnv zeroRow.get =
    truth asciiEnv zeroSchema zeroRow zeroNode :=
  build_eval zeroRow build_zeroNode

end Builder

end DeltaSwamp.Predicate
