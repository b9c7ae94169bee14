import DeltaSwamp.Predicate.Compared

/-!
# One lookup for many equalities

`IN` as a set lookup: with both zeros in the set it finds what the equalities
do, and a NULL among the items or in the column makes it unknown as they are.
-/

namespace DeltaSwamp.Predicate

open List

theorem Fl.key_eq_iff {x y : Fl} : x.key = y.key ↔ x.plusZero = y.plusZero := by
  cases x <;> cases y <;> simp [Fl.key, Fl.plusZero, eq_comm]

section
variable {t : Prim} {v w : Value}

/-- Two values of one type have an order, and are equal where adding zero leaves no difference. -/
theorem sqlOrder_typed (round : ℚ → Fl) (hv : v.hasType t = true) (hw : w.hasType t = true) :
    ∃ o, v.sqlOrder round w = some o ∧ (o = .eq ↔ v.plusZero = w.plusZero) := by
  cases t <;> cases v <;> cases w <;> simp_all [Value.hasType, Value.sqlOrder, Value.plusZero,
    Fl.sqlOrder, Fl.key_eq_iff]

theorem plusZero_zero :
    v.plusZero = .float (.fin 0) ↔ v = .float (.fin 0) ∨ v = .float .negZero := by
  cases v with
  | float x => cases x <;> simp [Value.plusZero, Fl.plusZero]
  | bool | num | text | bytes | time | nested => simp [Value.plusZero]

theorem plusZero_inj (h : v.plusZero = w.plusZero) (hw : w.plusZero ≠ .float (.fin 0)) : v = w := by
  cases v with
  | float x => cases w with
    | float y => cases x <;> cases y <;> simp_all [Value.plusZero, Fl.plusZero]
    | bool | num | text | bytes | time | nested => simp [Value.plusZero] at h
  | bool | num | text | bytes | time | nested =>
    cases w <;> simp_all [Value.plusZero]

theorem plusZero_notFloat (h : v.isFloat = false) : v.plusZero = v := by
  cases v <;> first | rfl | cases h

theorem mem_withZeros {type : Ty} {values : List Value} (htype : type.is t = true)
    (hv : v.hasType t = true) (hvalues : ∀ w ∈ values, w.hasType t = true) :
    v ∈ Builder.withZeros type values ↔ ∃ w ∈ values, v.plusZero = w.plusZero := by
  have hprim : type = .prim t := by
    cases type with
    | prim t' => simpa [Ty.is] using htype
    | struct | nested => cases htype
  subst hprim
  unfold Builder.withZeros
  split_ifs with hzero
  · simp only [Bool.and_eq_true, any_eq_true, decide_eq_true_eq] at hzero
    obtain ⟨-, zero, hmem, hzero⟩ := hzero
    constructor
    · intro h
      rcases mem_append.mp h with h | h
      · exact ⟨v, h, rfl⟩
      · have hv0 : v.plusZero = .float (.fin 0) := plusZero_zero.mpr (by simpa using h)
        exact ⟨zero, hmem, hv0.trans hzero.symm⟩
    · rintro ⟨w, hw, heq⟩
      by_cases hw0 : w.plusZero = .float (.fin 0)
      · refine mem_append_right _ ?_
        simpa using plusZero_zero.mp (heq.trans hw0)
      · rw [plusZero_inj heq hw0]
        exact mem_append_left _ hw
  · constructor
    · intro h
      exact ⟨v, h, rfl⟩
    · rintro ⟨w, hw, heq⟩
      cases hfloating : t.isFloating with
      | false =>
        rw [plusZero_notFloat (not_isFloat_of_not_floating hfloating hv),
          plusZero_notFloat (not_isFloat_of_not_floating hfloating (hvalues w hw))] at heq
        rwa [heq]
      | true =>
        have hw0 : w.plusZero ≠ .float (.fin 0) := by
          intro hw0
          exact hzero (by
            simp only [Bool.and_eq_true, any_eq_true, decide_eq_true_eq]
            exact ⟨hfloating, w, hw, hw0⟩)
        rw [plusZero_inj heq hw0]
        exact hw

end

namespace Builder

open Result

variable {env : Env} {schema : Schema} (row : Row env.lower schema)

/-- The equality of a column with a literal. -/
def equalityTruth (c : Column) (l : Literal) : Truth :=
  compareTruth env schema row .eq (.column c) (.literal l)

section
variable {c : Column} {path : List Text} {type : Ty}

theorem equalityTruth_null (hc : resolve env schema c = .ok (path, type)) :
    equalityTruth row c .null = none := by
  simp only [equalityTruth, compareTruth, operandValues, hc, ok_bind, coerce]
  cases row.get path <;> simp [castColumn, compareValues, pure, Except.pure]

variable {scalar : Scalar}

theorem equalityTruth_scalar (hc : resolve env schema c = .ok (path, type)) {l : Literal}
    (hl : coerce env l (some type) = .ok (none, some scalar)) :
    equalityTruth row c l = compareValues env .eq (row.get path) (some scalar.value) := by
  simp only [equalityTruth, compareTruth, operandValues, hc, ok_bind, hl]
  rfl

variable {literals : List Literal}

/-- The literals of a lookup are NULL or have one of its scalars, and each scalar is of one. -/
theorem scalarsOf_spec {scalars : List Scalar}
    (h : scalarsOf env type literals = .ok (some scalars)) :
    (∀ l ∈ literals, l = .null ∨
      ∃ scalar ∈ scalars, coerce env l (some type) = .ok (none, some scalar)) ∧
    ∀ scalar ∈ scalars, type.is scalar.type = true ∧
      ∃ l ∈ literals, coerce env l (some type) = .ok (none, some scalar) := by
  induction literals generalizing scalars with
  | nil =>
    cases h
    simp
  | cons l rest ih =>
    by_cases hnull : l = .null
    · subst hnull
      obtain ⟨hforward, hback⟩ := ih h
      refine ⟨?_, fun scalar hscalar => ?_⟩
      · intro l hl
        rcases mem_cons.mp hl with rfl | hl
        · exact .inl rfl
        · exact hforward l hl
      · obtain ⟨htype, l, hl, hcoerce⟩ := hback scalar hscalar
        exact ⟨htype, l, mem_cons_of_mem _ hl, hcoerce⟩
    · rw [scalarsOf.eq_3 env type l rest hnull] at h
      obtain ⟨⟨cast, scalar⟩, hcoerce, h⟩ := bind_eq_ok_iff.mp h
      split at h
      · rename_i scalar' heq
        cases heq
        split_ifs at h with htype
        · obtain ⟨found, hrest, h⟩ := bind_eq_ok_iff.mp h
          rw [pure_eq_ok_iff, Option.map_eq_some_iff] at h
          obtain ⟨others, rfl, rfl⟩ := h
          obtain ⟨hforward, hback⟩ := ih hrest
          refine ⟨fun l' hl' => ?_, fun scalar hscalar => ?_⟩
          · rcases mem_cons.mp hl' with rfl | hl'
            · exact .inr ⟨scalar', by simp, hcoerce⟩
            · exact (hforward l' hl').imp_right fun ⟨scalar, hscalar, h⟩ =>
                ⟨scalar, mem_cons_of_mem _ hscalar, h⟩
          · rcases mem_cons.mp hscalar with rfl | hscalar
            · exact ⟨htype, l, by simp, hcoerce⟩
            · obtain ⟨htype, l', hl', h⟩ := hback scalar hscalar
              exact ⟨htype, l', mem_cons_of_mem _ hl', h⟩
        · cases h
      · cases h

theorem any_unknown {values : List Truth} (hne : values ≠ []) (h : ∀ v ∈ values, v = none) :
    Truth.any values = none := by
  cases hany : Truth.any values with
  | none => rfl
  | some b =>
    cases b with
    | true =>
      cases h _ (Truth.any_eq_true.mp hany)
    | false =>
      obtain ⟨v, hv⟩ := exists_mem_of_ne_nil values hne
      cases (h v hv).symm.trans (Truth.any_eq_false.mp hany v hv)

theorem any_missed (f : Literal → Truth) (hnull : f .null = none)
    (hmiss : ∀ l ∈ literals, l ≠ .null → f l = some false) :
    Truth.any (literals.map f) = if literals.contains .null then none else some false := by
  have hcases : ∀ l ∈ literals, f l = none ∨ f l = some false := by
    intro l hl
    by_cases h : l = .null
    · exact .inl (h ▸ hnull)
    · exact .inr (hmiss l hl h)
  split_ifs with hcontains
  · rw [contains_iff_mem] at hcontains
    rw [Truth.ext_iff, Truth.any_eq_true, Truth.any_eq_false]
    constructor
    · simp only [reduceCtorEq, iff_false, mem_map, not_exists, not_and]
      intro l hl h
      rcases hcases l hl with h' | h' <;> simp [h'] at h
    · simp only [reduceCtorEq, iff_false]
      intro h
      have := h _ (mem_map_of_mem hcontains)
      rw [hnull] at this
      cases this
  · rw [contains_iff_mem] at hcontains
    rw [Truth.any_eq_false]
    intro value hvalue
    obtain ⟨l, hl, rfl⟩ := mem_map.mp hvalue
    exact hmiss l hl fun h => hcontains (h ▸ hl)

theorem equalityTruth_of_null (hc : resolve env schema c = .ok (path, type))
    (hv : row.get path = none) (l : Literal) : equalityTruth row c l = none := by
  simp only [equalityTruth, compareTruth, operandValues, hc, ok_bind]
  cases coerce env l (some type) with
  | error => rfl
  | ok coerced =>
    rcases coerced with ⟨_ | cast, scalar⟩ <;>
      simp [hv, castColumn, compareValues, ok_bind, pure, Except.pure]

theorem equalityTruth_typed (hc : resolve env schema c = .ok (path, type)) {l : Literal}
    (hl : coerce env l (some type) = .ok (none, some scalar)) {v : Value}
    (hv : row.get path = some v) (hvt : v.hasType scalar.type = true) :
    equalityTruth row c l = some (decide (v.plusZero = scalar.value.plusZero)) := by
  obtain ⟨o, ho, heq⟩ := sqlOrder_typed env.round hvt scalar.typed
  rw [equalityTruth_scalar row hc hl, hv]
  simp only [compareValues, ho, Option.map_some, CmpOp.holds, heq]

/-- A lookup among the literals is the disjunction of the equalities. -/
theorem isInLookup_eval (hc : resolve env schema c = .ok (path, type)) {rest : List Scalar}
    (h : scalarsOf env type literals = .ok (some (scalar :: rest))) :
    (isInLookup (.field path) (withZeros type ((scalar :: rest).map Scalar.value))
        (literals.contains .null)).eval env row.get =
      Truth.any (literals.map (equalityTruth row c)) := by
  obtain ⟨hforward, hback⟩ := scalarsOf_spec h
  have htype : type.is scalar.type = true := (hback scalar (by simp)).1
  have hsame : ∀ s ∈ scalar :: rest, s.type = scalar.type := by
    intro s hs
    have hs := (hback s hs).1
    cases type with
    | prim t =>
      simp only [Ty.is, decide_eq_true_eq] at htype hs
      rw [← hs, htype]
    | struct | nested => cases htype
  have hprim : type = .prim scalar.type := by
    cases type with
    | prim t => simpa [Ty.is] using htype
    | struct | nested => cases htype
  have hne : literals ≠ [] := by
    rintro rfl
    cases h
  simp only [isInLookup, Expr.eval, Term.eval]
  cases hv : row.get path with
  | none =>
    have hunknown : Truth.any (literals.map (equalityTruth row c)) = none := by
      apply any_unknown (by simpa using hne)
      intro value hvalue
      obtain ⟨l, -, rfl⟩ := mem_map.mp hvalue
      exact equalityTruth_of_null row hc hv l
    rw [hunknown]
    rfl
  | some v =>
    have hvt : v.hasType scalar.type = true := by
      have := column_typed row hc hv
      rwa [hprim] at this
    have hvalues : ∀ w ∈ (scalar :: rest).map Scalar.value, w.hasType scalar.type = true := by
      intro w hw
      obtain ⟨s, hs, rfl⟩ := mem_map.mp hw
      exact hsame s hs ▸ s.typed
    have hmem := mem_withZeros htype hvt hvalues
    have htruth : ∀ s ∈ scalar :: rest, ∀ l, coerce env l (some type) = .ok (none, some s) →
        equalityTruth row c l = some (decide (v.plusZero = s.value.plusZero)) := by
      intro s hs l hl
      exact equalityTruth_typed row hc hl hv (hsame s hs ▸ hvt)
    change Truth.ifElse (some true) (Truth.ifElse
      (some (decide (v ∈ withZeros type ((scalar :: rest).map Scalar.value)))) (some true) _) _ = _
    simp only [Truth.ifElse, hmem]
    by_cases hfound : ∃ w ∈ (scalar :: rest).map Scalar.value, v.plusZero = w.plusZero
    · rw [decide_eq_true hfound]
      obtain ⟨w, hw, heq⟩ := hfound
      obtain ⟨s, hs, rfl⟩ := mem_map.mp hw
      obtain ⟨-, l, hl, hcoerce⟩ := hback s hs
      refine (Truth.any_eq_true.mpr (mem_map.mpr ⟨l, hl, ?_⟩)).symm
      rw [htruth s hs l hcoerce, decide_eq_true heq]
    · rw [decide_eq_false hfound]
      have hmiss : ∀ l ∈ literals, l ≠ .null → equalityTruth row c l = some false := by
        intro l hl hnull
        obtain ⟨s, hs, hcoerce⟩ := (hforward l hl).resolve_left hnull
        rw [htruth s hs l hcoerce, decide_eq_false]
        exact fun heq => hfound ⟨s.value, mem_map_of_mem hs, heq⟩
      exact (any_missed (equalityTruth row c) (equalityTruth_null row hc) hmiss).symm

theorem noScalars_eval (hc : resolve env schema c = .ok (path, type)) (hne : literals ≠ [])
    (h : scalarsOf env type literals = .ok (some [])) :
    Truth.any (literals.map (equalityTruth row c)) = none := by
  apply any_unknown (by simpa using hne)
  intro value hvalue
  obtain ⟨l, hl, rfl⟩ := mem_map.mp hvalue
  rcases (scalarsOf_spec h).1 l hl with rfl | ⟨scalar, hscalar, -⟩
  · exact equalityTruth_null row hc
  · cases hscalar

end

theorem mapM_literal {items : List Operand} {literals : List Literal}
    (h : items.mapM Operand.literal? = some literals) : items = literals.map .literal := by
  induction items generalizing literals with
  | nil =>
    cases h
    rfl
  | cons item items ih =>
    rw [mapM_cons, Option.bind_eq_bind, Option.bind_eq_some_iff] at h
    obtain ⟨l, hl, h⟩ := h
    rw [Option.bind_eq_bind, Option.bind_eq_some_iff] at h
    obtain ⟨rest, hrest, h⟩ := h
    cases h
    cases item with
    | column => cases hl
    | literal =>
      cases hl
      rw [ih hrest]
      rfl

theorem membership_nil {target : Operand} {e : Expr}
    (h : membership env schema target [] = .ok (some e)) : e.eval env row.get = none := by
  unfold membership at h
  split at h
  · rename_i c literals hliterals
    cases hliterals
    obtain ⟨⟨term, type⟩, -, h⟩ := bind_eq_ok_iff.mp h
    cases h
    simp only [Expr.eval]
    cases (term.eval env row.get).isSome <;> rfl
  · cases h

theorem membership_eval {target : Operand} {items : List Operand} {e : Expr} (hne : items ≠ [])
    (h : membership env schema target items = .ok (some e)) :
    e.eval env row.get = Truth.any (items.map (compareTruth env schema row .eq target)) := by
  unfold membership at h
  split at h
  · rename_i c literals hliterals
    rw [mapM_literal hliterals, map_map]
    change _ = Truth.any (literals.map (equalityTruth row c))
    have hne' : literals ≠ [] := by
      rintro rfl
      exact hne (mapM_literal hliterals)
    obtain ⟨⟨term, type⟩, hcolumn, h⟩ := bind_eq_ok_iff.mp h
    obtain ⟨path, hc, rfl⟩ := column_eq_ok hcolumn
    obtain ⟨found, hscalars, h⟩ := bind_eq_ok_iff.mp h
    dsimp only at hscalars h
    split at h
    · cases h
    · cases h
      rw [noScalars_eval row hc hne' hscalars]
      simp only [Expr.eval, Term.eval]
      cases row.get path <;> rfl
    · obtain ⟨taken, -, h⟩ := bind_eq_ok_iff.mp h
      split_ifs at h
      · cases h
        exact isInLookup_eval row hc hscalars
      · cases h
  · cases h

end Builder

end DeltaSwamp.Predicate
