import DeltaSwamp.Cone
import DeltaSwamp.Predicate.Filtered

/-!
# Predicates prepared for skipping

`_prepare_skipping`: literals take their column's type, and a LIKE that begins with a literal
prefix becomes the range of the texts with that prefix.
-/

namespace DeltaSwamp.Predicate

/-- The loop of `_like_prefix`, from the text read so far. -/
def likePrefixFrom (out : Text) : Text → Option (Text × Bool)
  | '\\' :: c :: rest => likePrefixFrom (out ++ [c]) rest
  | c :: rest =>
    if c = '%' ∨ c = '_' then if out.isEmpty then none else some (out, false)
    else likePrefixFrom (out ++ [c]) rest
  | [] => some (out, true)

/-- `_like_prefix`: the literal prefix, and whether the pattern is only that. -/
def likePrefix (pattern : Text) : Option (Text × Bool) := likePrefixFrom [] pattern

/-- The code point after one that is no surrogate, skipping the surrogates. -/
def codeAfter (code : ℕ) : ℕ := if code + 1 = 0xD800 then 0xE000 else code + 1

def charAfter (c : Char) : Option Char :=
  let code := codeAfter c.toNat
  if code ≤ 0x10FFFF then some (Char.ofNat code) else none

/-- The loop of `_after_prefix`, on the characters from the last on. -/
def afterReversed : List Char → Option (List Char)
  | [] => none
  | last :: before =>
    match charAfter last with
    | some bumped => some (bumped :: before)
    | none => afterReversed before

/-- `_after_prefix` -/
def afterPrefix (start : Text) : Option Text := (afterReversed start.reverse).map List.reverse

/-- `_EXACT_DOUBLE_INT` -/
def exactDoubleInt : ℕ := 2 ^ 53

/-- A number against an integer column: the whole number on the side the comparison keeps. -/
def wholeLiteral (number : ℚ) (op : CmpOp) : Option (Literal × CmpOp) :=
  let fit (whole : ℤ) (op : CmpOp) :=
    if -2 ^ 63 ≤ whole ∧ whole ≤ 2 ^ 63 - 1 then some (.long whole, op) else none
  if number.den = 1 then fit number.num op
  else match op with
    | .lt | .le => fit ⌊number⌋ .le
    | .gt | .ge => fit ⌈number⌉ .ge
    | .eq | .ne => none

/-- The number a finite float is. -/
def Fl.rational : Fl → Option ℚ
  | .fin q => some q
  | .negZero => some 0
  | .nan | .negInf | .posInf => none

section
variable (env : Env)

/-- The DOUBLE of a decimal literal. -/
def doubleLiteral (d : Dec) : Option Literal :=
  match toScalar env (.decimal d) with
  | .error _ => none
  | .ok scalar =>
    match env.cast scalar .float64 with
    | some ⟨_, .float x, _⟩ => some (.double x)
    | _ => none

/-- `_skip_literal`: the literal of the column's type and the comparison to make with it. -/
def skipLiteral (lit : Literal) (target : Ty) (op : CmpOp) : Option (Literal × CmpOp) :=
  match lit, target with
  | .decimal d, .prim t =>
    if t = .float64 then (doubleLiteral env d).map fun lit => (lit, op)
    else if t.isInteger then wholeLiteral d.value op
    else none
  | .double x, .prim t =>
    match x.rational with
    | none => none
    | some q => if t.isInteger ∧ |q| < exactDoubleInt then wholeLiteral q op else none
  | _, _ => none

variable (schema : Schema)

def columnType : Operand → Option Ty
  | .column c =>
    match resolvePath env.lower schema c.path with
    | .ok found => found.map Prod.snd
    | .error _ => none
  | .literal _ => none

/-- A comparison of a column with a literal, on either side. -/
def prepareCompare (op : CmpOp) (left right : Operand) : Leaf :=
  let (column, other, wanted) : Operand × Operand × CmpOp :=
    match left, right with
    | .literal _, .column _ => (right, left, op.mirror)
    | _, _ => (left, right, op)
  match columnType env schema column, other with
  | some target, .literal lit =>
    match skipLiteral env lit target wanted with
    | some (fixed, op') => .compare op' column (.literal fixed)
    | none => .compare op left right
  | _, _ => .compare op left right

/-- An item of a lookup or a bound of a range, and the comparison it is then for. -/
def prepareItem (target : Ty) (want : CmpOp) (item : Operand) : Operand × CmpOp :=
  match item with
  | .literal lit =>
    match skipLiteral env lit target want with
    | some (fixed, op) => (.literal fixed, op)
    | none => (item, want)
  | .column _ => (item, want)

def prepareIn (target : Operand) (items : List Operand) (negated : Bool) : Leaf :=
  match columnType env schema target with
  | none => .inList target items negated
  | some type =>
    let fixed := items.map (prepareItem env type .eq)
    if fixed.any fun item => item.2 ≠ .eq then .inList target items negated
    else .inList target (fixed.map Prod.fst) negated

def prepareBetween (target low high : Operand) (negated : Bool) : Leaf :=
  match columnType env schema target with
  | none => .between target low high negated
  | some type =>
    .between target (prepareItem env type .ge low).1 (prepareItem env type .le high).1 negated

def compareText (op : CmpOp) (target : Operand) (s : Text) : Node :=
  .leaf (.compare op target (.literal (.string s)))

/-- A LIKE with a literal prefix, on a text column. -/
def prepareLike (target : Operand) (pattern : Text) : Node :=
  let unchanged : Node := .leaf (.like target pattern false)
  if (columnType env schema target).any Ty.isText then
    match likePrefix pattern with
    | none => unchanged
    | some (start, true) => compareText .eq target start
    | some (start, false) =>
      match afterPrefix start with
      | none => compareText .ge target start
      | some upper => .and [compareText .ge target start, compareText .lt target upper]
  else unchanged

def prepareLeaf (exact : Bool) : Leaf → Node
  | .compare op left right => .leaf (prepareCompare env schema op left right)
  | .inList target items negated => .leaf (prepareIn env schema target items negated)
  | .between target low high negated => .leaf (prepareBetween env schema target low high negated)
  | .like target pattern negated =>
    if !negated && !exact then prepareLike env schema target pattern
    else .leaf (.like target pattern negated)
  | leaf => .leaf leaf

/-- `_prepare_skipping`; beneath a NOT, nothing is weakened. -/
def prepareSkipping (exact : Bool) : Node → Node
  | .leaf l => prepareLeaf env schema exact l
  | .and args => .and (args.map (prepareSkipping exact))
  | .or args => .or (args.map (prepareSkipping exact))
  | .not arg => .not (prepareSkipping true arg)

end

variable {pattern start : Text}

/-- The tokens of a pattern begin with its prefix, which is all of them where it is whole. -/
theorem tokens_of_likePrefixFrom {out : Text} {whole : Bool}
    (h : likePrefixFrom out pattern = some (start, whole)) :
    ∃ lit rest, start = out ++ lit ∧ Like.tokens pattern = lit.map .char ++ rest ∧
      (whole = true → rest = []) := by
  induction out, pattern using likePrefixFrom.induct with
  | case1 out c rest ih =>
    rw [likePrefixFrom] at h
    obtain ⟨lit, after, hstart, htokens, hwhole⟩ := ih h
    exact ⟨c :: lit, after, by simp [hstart], by simp [Like.tokens, htokens], hwhole⟩
  | case2 out c rest hescape hwild hempty =>
    simp [likePrefixFrom, hwild, hempty] at h
  | case3 out c rest hescape hwild hempty =>
    simp [likePrefixFrom, hwild, hempty] at h
    exact ⟨[], Like.tokens (c :: rest), by simp [h.1], rfl, by simp [← h.2]⟩
  | case4 out c rest hescape hwild ih =>
    simp only [likePrefixFrom, hwild, if_false] at h
    obtain ⟨lit, after, hstart, htokens, hwhole⟩ := ih h
    rw [not_or] at hwild
    exact ⟨c :: lit, after, by simp [hstart], by simp [Like.tokens, hwild, htokens], hwhole⟩
  | case5 out =>
    simp only [likePrefixFrom, Option.some.injEq, Prod.mk.injEq] at h
    exact ⟨[], [], by simp [h.1], rfl, fun _ => rfl⟩

variable {s : Text}

theorem prefix_of_accepts {lit : Text} {rest : List Like.Token}
    (h : Like.accepts (lit.map .char ++ rest) s = true) : lit <+: s := by
  induction lit generalizing s with
  | nil => exact List.nil_prefix
  | cons c lit ih =>
    cases s with
    | nil => simp [Like.accepts] at h
    | cons d s =>
      simp only [List.map_cons, List.cons_append, Like.accepts, Bool.and_eq_true,
        decide_eq_true_eq] at h
      exact List.cons_prefix_cons.mpr ⟨h.1, ih h.2⟩

theorem prefix_of_like {whole : Bool} (hstart : likePrefix pattern = some (start, whole))
    (h : like s pattern = true) : start <+: s := by
  obtain ⟨lit, rest, rfl, htokens, -⟩ := tokens_of_likePrefixFrom hstart
  rw [like, htokens] at h
  exact prefix_of_accepts h

theorem like_whole (hstart : likePrefix pattern = some (start, true)) :
    like s pattern = decide (s = start) := by
  obtain ⟨lit, rest, rfl, htokens, hrest⟩ := tokens_of_likePrefixFrom hstart
  rw [like, htokens, hrest rfl, List.append_nil, Like.accepts_chars]

theorem toNat_ofNat {n : ℕ} (h : n.isValidChar) : (Char.ofNat n).toNat = n := by
  rw [Char.ofNat, dif_pos h]
  rfl

theorem char_valid (c : Char) : c.toNat < 0xD800 ∨ 0xDFFF < c.toNat ∧ c.toNat < 0x110000 := c.valid

variable {a : Char}

theorem lt_iff_toNat {b : Char} : a < b ↔ a.toNat < b.toNat := Iff.rfl

theorem codeAfter_spec (c : Char) : (a < c ↔ codeAfter a.toNat ≤ c.toNat) := by
  have ha := char_valid a
  have hc := char_valid c
  rw [lt_iff_toNat, codeAfter]
  split_ifs <;> omega

theorem toNat_of_charAfter {b : Char} (h : charAfter a = some b) : b.toNat = codeAfter a.toNat := by
  have ha := char_valid a
  simp only [charAfter] at h
  split_ifs at h with hle
  cases h
  apply toNat_ofNat
  rw [codeAfter] at hle ⊢
  unfold Nat.isValidChar
  split_ifs at hle ⊢ <;> omega

theorem charAfter_nexts : Cone.Nexts charAfter := by
  constructor
  · intro a b h
    have hb := toNat_of_charAfter h
    constructor
    · exact (codeAfter_spec b).mpr hb.ge
    · intro c hac hcb
      have hc := (codeAfter_spec c).mp hac
      rw [lt_iff_toNat] at hcb
      omega
  · intro a h c
    rw [← not_lt]
    intro hac
    have hc := (codeAfter_spec c).mp hac
    have hvalid := char_valid c
    simp only [charAfter] at h
    split_ifs at h
    omega

theorem afterReversed_append (before : List Char) (c : Char) (last : List Char) :
    afterReversed (last ++ c :: before) =
      match afterReversed last with
      | some bumped => some (bumped ++ c :: before)
      | none => afterReversed (c :: before) := by
  induction last with
  | nil => rfl
  | cons d last ih =>
    rw [List.cons_append, afterReversed, afterReversed]
    cases charAfter d with
    | some bumped => rfl
    | none => exact ih

theorem afterPrefix_eq_bound (start : Text) : afterPrefix start = Cone.bound charAfter start := by
  unfold afterPrefix
  induction start with
  | nil => rfl
  | cons c start ih =>
    rw [List.reverse_cons, afterReversed_append, Cone.bound, ← ih]
    cases afterReversed start.reverse with
    | some bumped => simp
    | none =>
      rw [afterReversed]
      cases charAfter c with
      | some bumped => rfl
      | none => rfl

section
variable {env : Env} {schema : Schema}

variable {target : Operand}

theorem exists_text_column {type : Ty} (htype : columnType env schema target = some type)
    (htext : type.isText = true) :
    ∃ c spelled kind, target = .column c ∧
      resolve env schema c = .ok (spelled, .prim (.text kind)) ∧
      resolvePath env.lower schema c.path = .ok (some (spelled, .prim (.text kind))) := by
  cases target with
  | literal l => cases htype
  | column c =>
    cases hpath : resolvePath env.lower schema c.path with
    | error e => simp [columnType, hpath] at htype
    | ok found =>
      obtain _ | ⟨spelled, type'⟩ := found
      · simp [columnType, hpath] at htype
      · simp only [columnType, hpath, Option.map_some, Option.some.injEq] at htype
        subst htype
        obtain ⟨kind, rfl⟩ : ∃ kind, type' = .prim (.text kind) := by
          unfold Ty.isText Prim.isText at htext
          split at htext
          · split at htext
            · exact ⟨_, rfl⟩
            · cases htext
          · cases htext
        refine ⟨c, spelled, kind, rfl, ?_, hpath⟩
        rw [resolve, hpath]
        rfl

theorem coerce_string (hcast : ∀ s kind c, env.cast (.ofText s) (.text kind) = some c →
    c.value = .text s) (s : Text) (kind : TextKind) :
    ∃ scalar, coerce env (.string s) (some (.prim (.text kind))) = .ok (none, some scalar) ∧
      scalar.value = .text s := by
  have hscalar : toScalar env (.string s) = .ok (.ofText s) := rfl
  have hcoerce : coerce env (.string s) (some (.prim (.text kind))) =
      coercePlain env (.string s) (.text kind) := rfl
  rw [hcoerce, coercePlain, hscalar, Result.ok_bind]
  split_ifs with hkind
  · exact ⟨_, rfl, rfl⟩
  · cases h : env.cast (.ofText s) (.text kind) with
    | none => exact ⟨_, rfl, rfl⟩
    | some c => exact ⟨c, rfl, hcast s kind c h⟩

theorem truth_compareText {type : Ty}
    (hcast : ∀ s kind c, env.cast (.ofText s) (.text kind) = some c → c.value = .text s)
    (htype : columnType env schema target = some type) (htext : type.isText = true)
    (row : Row env.lower schema) {v : Text} (hv : textTruth env schema row target = some v)
    (op : CmpOp) (s : Text) :
    truth env schema row (compareText op target s) = some (op.holds (order v s)) := by
  obtain ⟨c, spelled, kind, rfl, hresolve, hpath⟩ := exists_text_column htype htext
  obtain ⟨scalar, hcoerce, hscalar⟩ := coerce_string hcast s kind
  have hget : row.get spelled = some (.text v) := by
    have hvalue : operandValue env schema row (.column c) = row.get spelled := by
      rw [operandValue, hresolve]
    cases h : row.get spelled with
    | none =>
      simp [textTruth, hvalue, h] at hv
    | some w =>
      have htyped := row.typed c.path spelled _ w hpath h
      cases w with
      | text w =>
        simp only [textTruth, hvalue, h, Option.some.injEq] at hv
        rw [hv]
      | _ => cases htyped
  have hvalues : operandValues env schema row (.column c) (.literal (.string s)) =
      .ok (some (.text v), some (.text s)) := by
    rw [operandValues, hresolve, Result.ok_bind, hcoerce, Result.ok_bind, hget]
    simp [castColumn, hscalar]
  rw [compareText, truth, leafTruth, compareTruth, hvalues]
  rfl

theorem truth_prepareLike {pattern : Text}
    (hcast : ∀ s kind c, env.cast (.ofText s) (.text kind) = some c → c.value = .text s)
    (row : Row env.lower schema) {v : Text} (hv : textTruth env schema row target = some v)
    (hlike : like v pattern = true)
    (h : truth env schema row (.leaf (.like target pattern false)) = some true) :
    truth env schema row (prepareLike env schema target pattern) = some true := by
  unfold prepareLike
  split_ifs with htext
  · obtain ⟨type, htype, htext⟩ := (Option.any_eq_true _ _).mp htext
    have hcompare := truth_compareText hcast htype htext row hv
    cases hstart : likePrefix pattern with
    | none => exact h
    | some found =>
      obtain ⟨start, whole⟩ := found
      cases whole with
      | true =>
        rw [like_whole hstart, decide_eq_true_eq] at hlike
        simp [hcompare, CmpOp.holds, hlike]
      | false =>
        have hstart := prefix_of_like hstart hlike
        have hlow : truth env schema row (compareText .ge target start) = some true := by
          rw [hcompare, CmpOp.holds]
          simpa using Cone.le_of_prefix hstart
        cases hafter : afterPrefix start with
        | none => simpa [hafter] using hlow
        | some upper =>
          have hbound := afterPrefix_eq_bound start ▸ hafter
          have hlt := Cone.lt_of_bound charAfter_nexts hstart hbound
          have hhigh : truth env schema row (compareText .lt target upper) = some true := by
            rw [hcompare, CmpOp.holds]
            simpa using hlt
          simp [hafter, truth, hlow, hhigh]
  · exact h

/-- A LIKE that is true stays true of what it is prepared to; the bound of a prefix is the least
text above all those with the prefix, and there is one unless nothing is above them. -/
theorem like_prefix_bounds (env : Env)
    (hcast : ∀ s kind c, env.cast (.ofText s) (.text kind) = some c → c.value = .text s)
    (schema : Schema) (target : Operand) (pattern : Text) :
    (∀ row : Row env.lower schema,
      truth env schema row (.leaf (.like target pattern false)) = some true →
        truth env schema row
          (prepareSkipping env schema false (.leaf (.like target pattern false))) = some true) ∧
      ∀ start : Text,
        (∀ u, afterPrefix start = some u ↔ IsLeast {u | ∀ s, start <+: s → s < u} u) ∧
          (afterPrefix start = none ↔ ¬ ∃ u : Text, ∀ s, start <+: s → s < u) := by
  refine ⟨fun row h => ?_, fun start => ⟨fun u => ?_, ?_⟩⟩
  · obtain ⟨v, hv, hlike⟩ : ∃ v, textTruth env schema row target = some v ∧
        like v pattern = true := by
      simpa [truth, leafTruth, negate] using h
    simpa [prepareSkipping, prepareLeaf] using truth_prepareLike hcast row hv hlike h
  · rw [afterPrefix_eq_bound]
    exact Cone.bound_eq_some_iff charAfter_nexts start u
  · rw [afterPrefix_eq_bound, Cone.bound_eq_none_iff charAfter_nexts,
      ← Set.not_nonempty_iff_eq_empty]
    rfl

end

/-- A table of one column. -/
def oneColumn (lower : Text → Text) (name : Text) (type : Prim) (v : Value)
    (hv : v.hasType type = true) : Row lower [(name, .prim type)] where
  get path := if path = [name] then some v else none
  typed := by
    intro path spelled t w hpath hw
    split_ifs at hw
    cases hw
    have hmatching (part : Text) : matching lower [(name, .prim type)] part = [] ∨
        matching lower [(name, .prim type)] part = [(name, .prim type)] := by
      unfold matching
      by_cases h : name = part <;> by_cases h' : lower name = lower part <;> simp [h, h']
    match path with
    | [] => cases hpath
    | part :: rest =>
      rw [resolvePath] at hpath
      cases hmatching part with
      | inl h =>
        rw [h] at hpath
        cases hpath
      | inr h =>
        rw [h] at hpath
        cases rest <;> cases hpath
        exact hv

def nameSchema : Schema := [("name".toList, .prim (.text .string))]

def nameRow : Row Builder.asciiEnv.lower nameSchema :=
  oneColumn _ _ _ (.text "a%c".toList) rfl

/-- `NAME LIKE 'a\%%'`, in the form the parser stores -/
def namePattern : Node := .leaf (.like (.column ⟨["NAME".toList]⟩) "a\\%%".toList false)

theorem like_prefix_bounds_escaped :
    truth Builder.asciiEnv nameSchema nameRow
        (prepareSkipping Builder.asciiEnv nameSchema false namePattern) = some true ∧
      prepareSkipping Builder.asciiEnv nameSchema false namePattern =
        .and [compareText .ge (.column ⟨["NAME".toList]⟩) "a%".toList,
          compareText .lt (.column ⟨["NAME".toList]⟩) "a&".toList] := by
  have hmatches : truth Builder.asciiEnv nameSchema nameRow namePattern = some true := by
    rw [namePattern, truth]
    decide
  have hprepared : prepareSkipping Builder.asciiEnv nameSchema false namePattern =
      .and [compareText .ge (.column ⟨["NAME".toList]⟩) "a%".toList,
        compareText .lt (.column ⟨["NAME".toList]⟩) "a&".toList] := by
    rw [namePattern, prepareSkipping]
    rfl
  refine ⟨(like_prefix_bounds Builder.asciiEnv ?_ nameSchema _ _).1 nameRow hmatches, hprepared⟩
  intro s kind c h
  simp only [Builder.asciiEnv] at h
  split_ifs at h
  cases h
  rfl

end DeltaSwamp.Predicate
