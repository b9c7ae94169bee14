import DeltaSwamp.Kleene
import DeltaSwamp.Text

/-!
# Substrings in the target's SQL

`_Renderer.substring` and its callers: Spark's `substring`, `left` and `right` in terms of the
target's `substr`.
-/

namespace DeltaSwamp.Dialect.Substring

/-- `int(digits)`, where `digits.isdigit()`. -/
structure Digits where
  toInt : Text → Option ℕ
  one : toInt ['1'] = some 1

/-- What the renderer looks at in an argument: numbers alone. -/
inductive Node where
  | num (digits suffix : Text)
  | unary (op : Char) (operand : Node)
  | other

def plainSuffixes : List Text := ["".toList, "L".toList, "S".toList, "Y".toList]

/-- `_int_literal` -/
def intLiteral (digits : Digits) : Node → Option ℕ
  | .num text suffix => if suffix ∈ plainSuffixes then digits.toInt text else none
  | _ => none

/-- A text argument as it is rendered, and its value in a row. -/
structure TextArg where
  rendered : Text
  value : Option Text

/-- An integer argument; a literal has the value it spells. -/
structure IntArg (digits : Digits) where
  node : Node
  rendered : Text
  value : Option ℤ
  literal : ∀ k, intLiteral digits node = some k → value = some (k : ℤ)

namespace IntArg

variable {digits : Digits}

/-- `_Num("1", "")` -/
def one (digits : Digits) : IntArg digits where
  node := .num ['1'] []
  rendered := ['1']
  value := some 1
  literal k hk := by
    rw [intLiteral, if_pos (by decide), digits.one] at hk
    cases hk
    rfl

/-- `_Unary("-", n)` -/
def neg (n : IntArg digits) : IntArg digits where
  node := .unary '-' n.node
  rendered := "(-".toList ++ n.rendered ++ ")".toList
  value := n.value.map (-·)
  literal k hk := by cases hk

end IntArg

section
variable (digits : Digits)

inductive Comparison where
  | gt
  | lt
  | eq
  | le

/-- An integer of the target. `cases` holds the `when`s of one CASE. -/
inductive IntSql where
  | arg (a : IntArg digits)
  | number (k : ℕ)
  | length (s : TextArg)
  | add (a b : IntSql)
  | sub (a b : IntSql)
  | group (a : IntSql)
  | cases (branches : IntSql)
  | when (a : IntSql) (op : Comparison) (b value rest : IntSql)
  | done

inductive TextSql where
  | substr (s : TextArg) (first : IntSql digits)
  | substrLength (s : TextArg) (first count : IntSql digits)
  /-- `CASE WHEN a <= b THEN '' ELSE otherwise END` -/
  | unlessEmpty (a b : IntSql digits) (otherwise : TextSql)
  /-- `CASE WHEN s IS NOT NULL AND a <= b THEN '' ELSE otherwise END` -/
  | unlessEmptyOf (s : TextArg) (a b : IntSql digits) (otherwise : TextSql)

end

def Comparison.text : Comparison → Text
  | .gt => " > ".toList
  | .lt => " < ".toList
  | .eq => " = ".toList
  | .le => " <= ".toList

section
variable {digits : Digits} (duck : Bool)

def IntSql.text : IntSql digits → Text
  | .arg a => a.rendered
  | .number k => (toString k).toList
  | .length s => (if duck then "length(" else "character_length(").toList ++ s.rendered ++ [')']
  | .add a b => a.text ++ " + ".toList ++ b.text
  | .sub a b => a.text ++ " - ".toList ++ b.text
  | .group a => ['('] ++ a.text ++ [')']
  | .cases branches => "(CASE".toList ++ branches.text ++ " END)".toList
  | .when a op b value rest =>
    " WHEN ".toList ++ a.text ++ op.text ++ b.text ++ " THEN ".toList ++ value.text ++ rest.text
  | .done => []

def TextSql.text : TextSql digits → Text
  | .substr s first => "substr(".toList ++ s.rendered ++ ", ".toList ++ first.text duck ++ [')']
  | .substrLength s first count =>
    "substr(".toList ++ s.rendered ++ ", ".toList ++ first.text duck ++ ", ".toList ++
      count.text duck ++ [')']
  | .unlessEmpty a b otherwise =>
    "(CASE WHEN ".toList ++ a.text duck ++ " <= ".toList ++ b.text duck ++
      " THEN '' ELSE ".toList ++ otherwise.text ++ " END)".toList
  | .unlessEmptyOf s a b otherwise =>
    "(CASE WHEN ".toList ++ s.rendered ++ " IS NOT NULL AND ".toList ++ a.text duck ++
      " <= ".toList ++ b.text duck ++ " THEN '' ELSE ".toList ++ otherwise.text ++ " END)".toList

end

section
variable {digits : Digits} (s : TextArg) (p n : IntArg digits)

/-- The 0-based start, as Spark computes it. -/
def start0 : IntSql digits :=
  .cases (.when (.arg p) .gt (.number 0) (.sub (.arg p) (.number 1))
    (.when (.arg p) .lt (.number 0) (.add (.length s) (.arg p))
      (.when (.arg p) .eq (.number 0) (.number 0) .done)))

/-- The start clamped to the string. -/
def start : IntSql digits :=
  .cases (.when (start0 s p) .gt (.number 0) (start0 s p)
    (.when (start0 s p) .le (.number 0) (.number 0) .done))

/-- Where the characters end, 0-based. -/
def stop : IntSql digits := .group (.add (start0 s p) (.arg n))

/-- The general form of `substring(s, p)`. -/
def general : TextSql digits := .substr s (.add (start s p) (.number 1))

/-- The general form of `substring(s, p, n)`. -/
def generalLength : TextSql digits :=
  .unlessEmpty (stop s p n) (start s p)
    (.substrLength s (.add (start s p) (.number 1)) (.sub (stop s p n) (start s p)))

/-- `_Renderer.substring`, without a length. -/
def substring : TextSql digits :=
  match intLiteral digits p.node with
  | some k => .substr s (.number (max k 1))
  | none => general s p

/-- `_Renderer.substring`, with one. -/
def substringLength : TextSql digits :=
  match intLiteral digits p.node, intLiteral digits n.node with
  | some k, some _ => .substrLength s (.number (max k 1)) (.arg n)
  | _, _ => generalLength s p n

/-- `_left` -/
def left : TextSql digits := substringLength s (.one digits) n

/-- `_right` -/
def right : TextSql digits :=
  .unlessEmptyOf s (.arg n) (.number 0) (substring s n.neg)

end

/-- The target's `substr`, from a position and for a number of characters. -/
structure Target where
  substr : Text → ℤ → Text
  substrLength : Text → ℤ → ℤ → Text
  substr_eq : ∀ s i, 1 ≤ i → substr s i = s.drop (i - 1).toNat
  substrLength_eq : ∀ s i k, 1 ≤ i → 0 ≤ k →
    substrLength s i k = (s.drop (i - 1).toNat).take k.toNat

def Comparison.eval (op : Comparison) : Option ℤ → Option ℤ → Truth
  | some a, some b =>
    match op with
    | .gt => some (decide (b < a))
    | .lt => some (decide (a < b))
    | .eq => some (decide (a = b))
    | .le => some (decide (a ≤ b))
  | _, _ => none

section
variable {digits : Digits}

/-- NULL where an operand is; a CASE without a branch that is true is NULL. -/
def IntSql.eval : IntSql digits → Option ℤ
  | .arg a => a.value
  | .number k => some k
  | .length s => s.value.map fun s => (s.length : ℤ)
  | .add a b => a.eval.bind fun x => b.eval.map fun y => x + y
  | .sub a b => a.eval.bind fun x => b.eval.map fun y => x - y
  | .group a => a.eval
  | .cases branches => branches.eval
  | .when a op b value rest => if op.eval a.eval b.eval = some true then value.eval else rest.eval
  | .done => none

variable (target : Target)

def TextSql.eval : TextSql digits → Option Text
  | .substr s first => s.value.bind fun s => first.eval.map fun i => target.substr s i
  | .substrLength s first count =>
    s.value.bind fun s => first.eval.bind fun i => count.eval.map fun k =>
      target.substrLength s i k
  | .unlessEmpty a b otherwise =>
    if Comparison.le.eval a.eval b.eval = some true then some [] else otherwise.eval
  | .unlessEmptyOf s a b otherwise =>
    if Truth.and (some s.value.isSome) (Comparison.le.eval a.eval b.eval) = some true then some []
    else otherwise.eval

end

/-- The 0-based start of a position in a text of some length. -/
def startOf (length : ℕ) (p : ℤ) : ℤ :=
  if 0 < p then p - 1 else if p < 0 then length + p else 0

/-- The characters from one 0-based position up to another, clamped to the text. -/
def slice (s : Text) (start stop : ℤ) : Text := (s.take stop.toNat).drop start.toNat

/-- Spark's `substring(s, p)`. -/
def sparkSubstring (s : Option Text) (p : Option ℤ) : Option Text :=
  s.bind fun s => p.map fun p => slice s (startOf s.length p) s.length

/-- Spark's `substring(s, p, n)`. -/
def sparkSubstringLength (s : Option Text) (p n : Option ℤ) : Option Text :=
  s.bind fun s => p.bind fun p => n.map fun n =>
    slice s (startOf s.length p) (startOf s.length p + n)

/-- Spark's `left(s, n)`. -/
def sparkLeft (s : Option Text) (n : Option ℤ) : Option Text := sparkSubstringLength s (some 1) n

/-- Spark's `right(s, n)`: the last characters, and none for a length that is not positive. -/
def sparkRight (s : Option Text) (n : Option ℤ) : Option Text :=
  s.bind fun s => n.map fun n => if n ≤ 0 then [] else slice s (startOf s.length (-n)) s.length

section
variable {digits : Digits} {s : TextArg} {p n : IntArg digits} {t : Text}

attribute [simp] Comparison.eval IntSql.eval TextSql.eval

theorem slice_eq (t : Text) (start stop : ℤ) :
    slice t start stop = (t.drop start.toNat).take (stop.toNat - start.toNat) := by
  rw [slice, List.drop_take]

theorem slice_of_le {start stop : ℤ} (h : stop ≤ max start 0) : slice t start stop = [] := by
  have hle : stop.toNat ≤ start.toNat := by omega
  rw [slice_eq, Nat.sub_eq_zero_of_le hle, List.take_zero]

theorem slice_length (t : Text) (start : ℤ) : slice t start t.length = t.drop start.toNat := by
  simp [slice]

theorem eval_start0_null (hp : p.value = none) : (start0 s p).eval = none := by
  simp [start0, IntSql.eval, Comparison.eval, hp]

theorem eval_start0_front {k : ℤ} (hp : p.value = some k) (hk : 0 ≤ k) (length : ℕ) :
    (start0 s p).eval = some (startOf length k) := by
  by_cases hpos : 0 < k
  · simp [start0, IntSql.eval, Comparison.eval, hp, startOf, hpos]
  · have hzero : k = 0 := by omega
    simp [start0, IntSql.eval, Comparison.eval, hp, startOf, hzero]

theorem eval_start0_back {k : ℤ} (hp : p.value = some k) (hk : k < 0) :
    (start0 s p).eval = s.value.map fun t => startOf t.length k := by
  have hpos : ¬ 0 < k := by omega
  cases hs : s.value with
  | none => simp [start0, IntSql.eval, Comparison.eval, hp, hs, hpos, hk]
  | some t => simp [start0, IntSql.eval, Comparison.eval, hp, hs, startOf, hpos, hk]

theorem eval_start0 {k : ℤ} (hs : s.value = some t) (hp : p.value = some k) :
    (start0 s p).eval = some (startOf t.length k) := by
  by_cases hk : k < 0
  · rw [eval_start0_back hp hk, hs]
    rfl
  · exact eval_start0_front hp (by omega) t.length

theorem eval_start (s : TextArg) (p : IntArg digits) :
    (start s p).eval = (start0 s p).eval.map (max · 0) := by
  rw [start, IntSql.eval, IntSql.eval, IntSql.eval]
  cases h : (start0 s p).eval with
  | none => simp [IntSql.eval, Comparison.eval, h]
  | some k =>
    by_cases hk : 0 < k
    · simp [Comparison.eval, hk, hk.le]
    · have hle : k ≤ 0 := by omega
      simp [IntSql.eval, Comparison.eval, h, hk, hle]

theorem eval_stop (s : TextArg) (p n : IntArg digits) :
    (stop s p n).eval = (start0 s p).eval.bind fun x => n.value.map fun y => x + y := rfl

variable (target : Target)

theorem eval_general (s : TextArg) (p : IntArg digits) :
    (general s p).eval target = sparkSubstring s.value p.value := by
  rw [general, TextSql.eval, sparkSubstring]
  cases hs : s.value with
  | none => rfl
  | some t =>
    cases hp : p.value with
    | none => simp [IntSql.eval, eval_start, eval_start0_null hp]
    | some k =>
      have hfirst : (IntSql.add (start s p) (.number 1)).eval =
          some (max (startOf t.length k) 0 + 1) := by
        simp [IntSql.eval, eval_start, eval_start0 hs hp]
      rw [hfirst, Option.bind_some, Option.map_some, target.substr_eq _ _ (by omega)]
      simp only [Option.bind_some, Option.map_some, slice_length]
      congr 2
      omega

theorem eval_generalLength_some {k l : ℤ} (hs : s.value = some t) (hp : p.value = some k)
    (hn : n.value = some l) :
    (generalLength s p n).eval target =
      some (slice t (startOf t.length k) (startOf t.length k + l)) := by
  have hstart : (start s p).eval = some (max (startOf t.length k) 0) := by
    rw [eval_start, eval_start0 hs hp]
    rfl
  have hstop : (stop s p n).eval = some (startOf t.length k + l) := by
    rw [eval_stop, eval_start0 hs hp, hn]
    rfl
  rw [generalLength, TextSql.eval, hstart, hstop]
  simp only [Comparison.eval, Option.some.injEq, decide_eq_true_eq]
  split_ifs with hempty
  · rw [slice_of_le hempty]
  · rw [TextSql.eval, hs]
    simp only [IntSql.eval, hstart, hstop, Option.bind_some, Option.map_some]
    rw [target.substrLength_eq _ _ _ (by omega) (by omega), slice_eq]
    congr 3 <;> omega

theorem eval_generalLength_of_stop (h : (stop s p n).eval = none) :
    (generalLength s p n).eval target = none := by
  rw [generalLength, TextSql.eval, h]
  simp [Comparison.eval, TextSql.eval, IntSql.eval, h]

/-- The range alone decides whether NULL counts as a text whose range is empty. -/
def NullAsEmpty (s : Option Text) (p n : Option ℤ) : Prop :=
  s = none ∧ (∃ k, p = some k ∧ 0 ≤ k) ∧ ∃ l, n = some l ∧ l ≤ 0

theorem eval_generalLength_null {k l : ℤ} (hs : s.value = none) (hp : p.value = some k)
    (hk : 0 ≤ k) (hn : n.value = some l) :
    (generalLength s p n).eval target = if l ≤ 0 then some [] else none := by
  have hfront : 0 ≤ startOf 0 k := by
    unfold startOf
    split_ifs <;> omega
  have hstart : (start s p).eval = some (startOf 0 k) := by
    rw [eval_start, eval_start0_front hp hk 0, Option.map_some, max_eq_left hfront]
  have hstop : (stop s p n).eval = some (startOf 0 k + l) := by
    rw [eval_stop, eval_start0_front hp hk 0, hn]
    rfl
  rw [generalLength, TextSql.eval, hstart, hstop, TextSql.eval, hs]
  simp [Comparison.eval]

theorem eval_generalLength_iff (s : TextArg) (p n : IntArg digits) :
    (generalLength s p n).eval target = sparkSubstringLength s.value p.value n.value ↔
      ¬ NullAsEmpty s.value p.value n.value := by
  unfold sparkSubstringLength NullAsEmpty
  cases hp : p.value with
  | none =>
    have hstop : (stop s p n).eval = none := by
      rw [eval_stop, eval_start0_null hp, Option.bind_none]
    simp [eval_generalLength_of_stop target hstop]
  | some k =>
    cases hn : n.value with
    | none =>
      have hstop : (stop s p n).eval = none := by rw [eval_stop, hn]; simp
      simp [eval_generalLength_of_stop target hstop]
    | some l =>
      cases hs : s.value with
      | some t => simp [eval_generalLength_some target hs hp hn]
      | none =>
        by_cases hk : 0 ≤ k
        · rw [eval_generalLength_null target hs hp hk hn]
          simp [hk]
        · have hstop : (stop s p n).eval = none := by
            rw [eval_stop, eval_start0_back hp (by omega), hs]
            rfl
          simp [eval_generalLength_of_stop target hstop, hk]

theorem startOf_literal (length k : ℕ) : startOf length k = (max k 1 : ℕ) - 1 := by
  unfold startOf
  split_ifs <;> omega

theorem eval_substring (s : TextArg) (p : IntArg digits) :
    (substring s p).eval target = sparkSubstring s.value p.value := by
  unfold substring
  cases hk : intLiteral digits p.node with
  | none => exact eval_general target s p
  | some k =>
    rw [p.literal k hk, sparkSubstring, TextSql.eval]
    congr 1
    funext t
    rw [IntSql.eval, Option.map_some, Option.map_some, target.substr_eq _ _ (by omega),
      slice_length, startOf_literal]

theorem eval_literalLength {k l : ℕ} (hk : intLiteral digits p.node = some k)
    (hl : intLiteral digits n.node = some l) :
    (substringLength s p n).eval target = sparkSubstringLength s.value p.value n.value := by
  unfold substringLength
  rw [hk, hl]
  dsimp only
  rw [p.literal k hk, n.literal l hl, sparkSubstringLength, TextSql.eval]
  congr 1
  funext t
  rw [IntSql.eval, IntSql.eval, n.literal l hl, Option.bind_some, Option.map_some, Option.bind_some,
    Option.map_some, target.substrLength_eq _ _ _ (by omega) (by omega), slice_eq, startOf_literal]
  congr 3
  omega

theorem substringLength_general (h : ¬ ((intLiteral digits p.node).isSome ∧
    (intLiteral digits n.node).isSome)) : substringLength s p n = generalLength s p n := by
  unfold substringLength
  cases hk : intLiteral digits p.node with
  | none => rfl
  | some k =>
    cases hl : intLiteral digits n.node with
    | none => rfl
    | some l => simp [hk, hl] at h

/-- The rendered form is Spark's result and, where it is the literal one, the general form's. -/
theorem substringLength_iff (s : TextArg) (p n : IntArg digits) :
    ((substringLength s p n).eval target = sparkSubstringLength s.value p.value n.value ∧
        ((intLiteral digits p.node).isSome → (intLiteral digits n.node).isSome →
          (substringLength s p n).eval target = (generalLength s p n).eval target)) ↔
      ¬ NullAsEmpty s.value p.value n.value := by
  rw [← eval_generalLength_iff target]
  by_cases h : (intLiteral digits p.node).isSome ∧ (intLiteral digits n.node).isSome
  · obtain ⟨k, hk⟩ := Option.isSome_iff_exists.mp h.1
    obtain ⟨l, hl⟩ := Option.isSome_iff_exists.mp h.2
    rw [eval_literalLength target hk hl]
    constructor
    · intro hboth
      exact (hboth.2 h.1 h.2).symm
    · intro hgeneral
      exact ⟨rfl, fun _ _ => hgeneral.symm⟩
  · rw [substringLength_general h]
    simp

theorem eval_right (s : TextArg) (n : IntArg digits) :
    (right s n).eval target = sparkRight s.value n.value := by
  rw [right, TextSql.eval, eval_substring, sparkRight]
  cases hs : s.value with
  | none => simp [Truth.and, sparkSubstring]
  | some t =>
    cases hn : n.value with
    | none => simp [IntSql.eval, hn, Comparison.eval, Truth.and, sparkSubstring, IntArg.neg]
    | some l =>
      simp only [IntSql.eval, hn, Comparison.eval, Option.isSome_some, Truth.and, IntArg.neg]
      by_cases hl : l ≤ 0 <;> simp [hl, sparkSubstring]

/-- Two arguments and `right` are exact. A third and `left` are, unless the text is NULL and what
would be read of it empty: the general form then gives the empty text. -/
theorem substring_exact (digits : Digits) (target : Target) (s : TextArg) (p n : IntArg digits) :
    ((substring s p).eval target = sparkSubstring s.value p.value ∧
      (substring s p).eval target = (general s p).eval target) ∧
    ((substringLength s p n).eval target = sparkSubstringLength s.value p.value n.value ∧
        ((intLiteral digits p.node).isSome → (intLiteral digits n.node).isSome →
          (substringLength s p n).eval target = (generalLength s p n).eval target) ↔
      ¬ (s.value = none ∧ (∃ k, p.value = some k ∧ 0 ≤ k) ∧ ∃ l, n.value = some l ∧ l ≤ 0)) ∧
    ((left s n).eval target = sparkLeft s.value n.value ∧
        ((intLiteral digits n.node).isSome →
          (left s n).eval target = (generalLength s (.one digits) n).eval target) ↔
      ¬ (s.value = none ∧ ∃ l, n.value = some l ∧ l ≤ 0)) ∧
    (right s n).eval target = sparkRight s.value n.value := by
  refine ⟨⟨eval_substring target s p, ?_⟩, substringLength_iff target s p n, ?_,
    eval_right target s n⟩
  · rw [eval_substring, eval_general]
  · have hone : (intLiteral digits (IntArg.one digits).node).isSome := by
      rw [IntArg.one, intLiteral, if_pos (by decide), digits.one]
      rfl
    have hnull : NullAsEmpty s.value (IntArg.one digits).value n.value ↔
        s.value = none ∧ ∃ l, n.value = some l ∧ l ≤ 0 := by
      unfold NullAsEmpty
      constructor
      · rintro ⟨hs, -, hn⟩
        exact ⟨hs, hn⟩
      · rintro ⟨hs, hn⟩
        exact ⟨hs, ⟨1, rfl, by omega⟩, hn⟩
    rw [← hnull, ← substringLength_iff target s (.one digits) n]
    constructor
    · rintro ⟨hspark, hagree⟩
      exact ⟨hspark, fun _ => hagree⟩
    · rintro ⟨hspark, hagree⟩
      exact ⟨hspark, hagree hone⟩

end

/-- Numbers of one digit. -/
def oneDigit : Digits where
  toInt
    | [c] => if c.isDigit then some (c.toNat - 48) else none
    | _ => none
  one := rfl

def plainTarget : Target where
  substr s i := s.drop (i - 1).toNat
  substrLength s i k := (s.drop (i - 1).toNat).take k.toNat
  substr_eq _ _ _ := rfl
  substrLength_eq _ _ _ _ _ := rfl

/-- A column that is NULL. -/
def nullText : TextArg := ⟨['s'], none⟩

/-- A column that holds a number. -/
def column (name : Char) (k : ℤ) : IntArg oneDigit where
  node := .other
  rendered := [name]
  value := some k
  literal _ hk := by cases hk

example : (start0 nullText (column 'p' 1)).text true =
    "(CASE WHEN p > 0 THEN p - 1 WHEN p < 0 THEN length(s) + p WHEN p = 0 THEN 0 END)".toList := rfl

/-- `substring(s, p, n)` and `left(s, n)` of a NULL text are empty where `n` is 0. -/
theorem substring_of_null :
    (substringLength nullText (column 'p' 1) (column 'n' 0)).eval plainTarget = some [] ∧
      sparkSubstringLength nullText.value (some 1) (some 0) = none ∧
      (left nullText (column 'n' 0)).eval plainTarget = some [] ∧
      sparkLeft nullText.value (some 0) = none := by
  decide

end DeltaSwamp.Dialect.Substring
