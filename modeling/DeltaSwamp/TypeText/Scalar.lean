import DeltaSwamp.TypeText.Legible

/-!
# Types that are a name

How white space is stripped, and the texts of primitive and decimal types: each is
read as its type, and no text that stops short of it or goes on past it is.
-/

namespace DeltaSwamp.TypeText

open Metadata (DataType primitiveTypes decimalType)
open Storage (isSpace strip)
open Bracketed (Off)

def rstrip (text : Text) : Text := (text.reverse.dropWhile isSpace).reverse

theorem rstrip_parts (text : Text) :
    ∃ after, text = rstrip text ++ after ∧ ∀ c ∈ after, isSpace c = true := by
  refine ⟨(text.reverse.takeWhile isSpace).reverse, ?_, ?_⟩
  · rw [rstrip, ← List.reverse_append, List.takeWhile_append_dropWhile, List.reverse_reverse]
  · intro c hc
    exact List.mem_takeWhile_imp (List.mem_reverse.mp hc)

variable {first : Text}

theorem rstrip_append (h : ∃ c ∈ first.getLast?, isSpace c = false) (text : Text) :
    rstrip (first ++ text) = first ++ rstrip text := by
  obtain ⟨c, hc, hsolid⟩ := h
  obtain ⟨init, rfl⟩ := List.getLast?_eq_some_iff.mp (Option.mem_def.mp hc)
  unfold rstrip
  rw [List.reverse_append, List.dropWhile_append]
  cases hrest : text.reverse.dropWhile isSpace with
  | nil => simp [hsolid]
  | cons d ds => simp

theorem strip_append (h : Solid first) (text : Text) :
    strip (first ++ text) = first ++ rstrip text := by
  obtain ⟨c, hc, hsolid⟩ := h.first
  obtain ⟨cs, rfl⟩ : ∃ cs, first = c :: cs := by
    cases first with
    | nil => cases hc
    | cons e cs => exact ⟨cs, by simpa [eq_comm] using hc⟩
  rw [← rstrip_append h.last, strip, rstrip, List.cons_append,
    List.dropWhile_cons_of_neg (by simp [hsolid])]

theorem strip_padded {before after : Text} (hbefore : ∀ c ∈ before, isSpace c = true)
    (hafter : ∀ c ∈ after, isSpace c = true) (text : Text) :
    strip (before ++ text ++ after) = strip text := by
  have hend : ∀ body : Text, ((body ++ after).reverse.dropWhile isSpace).reverse =
      (body.reverse.dropWhile isSpace).reverse := by
    intro body
    rw [List.reverse_append, List.dropWhile_append_of_pos]
    exact fun c hc => hafter c (List.mem_reverse.mp hc)
  rw [strip, List.append_assoc, List.dropWhile_append_of_pos hbefore, List.dropWhile_append, strip]
  split_ifs with hblank
  · rw [List.isEmpty_iff] at hblank
    have hnone : after.dropWhile isSpace = [] := List.dropWhile_eq_nil_iff.mpr hafter
    rw [hblank, hnone]
  · exact hend _

theorem strip_parts (text : Text) : ∃ before after : Text, text = before ++ strip text ++ after ∧
    (∀ c ∈ before, isSpace c = true) ∧ ∀ c ∈ after, isSpace c = true := by
  obtain ⟨after, hsplit, hafter⟩ := rstrip_parts (text.dropWhile isSpace)
  refine ⟨text.takeWhile isSpace, after, ?_, fun c hc => List.mem_takeWhile_imp hc, hafter⟩
  have hstrip : strip text = rstrip (text.dropWhile isSpace) := rfl
  rw [List.append_assoc, hstrip, ← hsplit, List.takeWhile_append_dropWhile]

theorem strip_strip (text : Text) : strip (strip text) = strip text := by
  obtain ⟨before, after, hsplit, hbefore, hafter⟩ := strip_parts text
  conv_rhs => rw [hsplit, strip_padded hbefore hafter]

variable {c : Char}

theorem space_unmarked (h : isSpace c = true) : bracket c = 0 ∧ c ≠ ',' := by
  apply not_isMark
  by_contra hmark
  rw [Bool.not_eq_false] at hmark
  simp only [isMark, List.mem_cons, List.not_mem_nil, or_false, decide_eq_true_eq] at hmark
  obtain rfl | rfl | rfl | rfl | rfl := hmark <;> revert h <;> decide

theorem splitTop_strip (text : Text) : splitTop (strip text) ',' = splitTop text ',' := by
  obtain ⟨before, after, hsplit, hbefore, hafter⟩ := strip_parts text
  conv_rhs => rw [hsplit]
  unfold splitTop
  rw [Bracketed.map_split_padded strip (fun c hc => space_unmarked (hbefore c hc))
    (fun c hc => space_unmarked (hafter c hc)) (fun part => ?_) (fun part => ?_)]
  · simpa using strip_padded hbefore (List.forall_mem_nil _) part
  · exact strip_padded (List.forall_mem_nil _) hafter part

/-- A character at which a type ends in the text of another. -/
def atEnd (c : Char) : Prop := c = ',' ∨ c = '>'

theorem atEnd_solid (h : atEnd c) : isSpace c = false := by
  obtain rfl | rfl := h <;> decide

theorem typeNameAliases_plain :
    ∀ p ∈ typeNameAliases, ',' ∉ p.1.toList ∧ '>' ∉ p.1.toList := by
  decide

theorem primitiveTypes_plain : ∀ name ∈ primitiveTypes, ',' ∉ name.toList ∧ '>' ∉ name.toList := by
  decide

theorem scalar_marked (unicode : Unicode) {raw lowered : Text} {c : Char} (hc : atEnd c)
    (hmem : c ∈ (partition '(' (lowered.filter (· ≠ ' '))).1) (d : DataType) :
    scalar unicode raw lowered ≠ .ok d := by
  have hmark : ∀ name : String, ',' ∉ name.toList ∧ '>' ∉ name.toList →
      String.ofList (partition '(' (lowered.filter (· ≠ ' '))).1 ≠ name := by
    rintro name ⟨hcomma, hangle⟩ rfl
    rw [String.toList_ofList] at hcomma hangle
    obtain rfl | rfl := hc
    · exact hcomma hmem
    · exact hangle hmem
  have hlookup : typeNameAliases.lookup
      (String.ofList (partition '(' (lowered.filter (· ≠ ' '))).1) = none := by
    rw [List.lookup_eq_none_iff]
    intro p hp
    simpa using hmark p.1 (typeNameAliases_plain p hp)
  unfold scalar aliased
  dsimp only
  rw [hlookup, Option.getD_none, if_neg (hmark "decimal" (by decide)),
    if_neg fun h => hmark "string" (by decide) h.2,
    if_neg fun h => hmark _ (primitiveTypes_plain _ h.2) rfl]
  exact fun h => by cases h

theorem Primitive.sql_solid (name : Primitive) : Solid name.sql := by
  cases name <;> exact ⟨⟨_, rfl, by decide⟩, _, rfl, by decide⟩

theorem Primitive.sql_plain (name : Primitive) :
    ∀ c ∈ name.sql, c.toNat < 128 ∧ c ≠ ',' ∧ c ≠ '>' := by
  cases name <;> decide

theorem Solid.snoc (h : Solid first) (hc : isSpace c = false) : Solid (first ++ [c]) := by
  obtain ⟨d, hd, hsolid⟩ := h.first
  exact ⟨⟨d, by rw [List.head?_append, Option.mem_def.mp hd]; rfl, hsolid⟩, c, by simp, hc⟩

theorem mem_partition {sep : Char} {rest : Text} (hfirst : sep ∉ first) (hc : c ≠ sep) :
    c ∈ (partition sep (first ++ c :: rest)).1 := by
  have htake : c ∈ (first ++ c :: rest).takeWhile (· ≠ sep) := by
    rw [List.takeWhile_append_of_pos fun d hd => ?_, List.takeWhile_cons_of_pos (by simpa using hc)]
    · simp
    · simpa using fun heq : d = sep => hfirst (heq ▸ hd)
  unfold partition
  split
  · simp
  · exact htake

section
variable (unicode : Unicode)

variable {x y : Text}

theorem primitive_off (name : Primitive) {n : Nat} (hoff : Off atEnd name.sql x)
    (hstrip : strip y = strip x) (d : DataType) : sqlTypeFrom unicode n y ≠ .ok d := by
  cases n with
  | zero => exact fun h => by cases h
  | succ n =>
    cases hoff with
    | @short rest c hc heq =>
      obtain ⟨-, hcomma, hangle⟩ := name.sql_plain c (by simp [heq])
      exact absurd hc (by simp [atEnd, hcomma, hangle])
    | @long rest c hc heq =>
      have hsplit : x = name.sql ++ [c] ++ rest := by simp [heq]
      rw [hsplit, strip_append (name.sql_solid.snoc (atEnd_solid hc))] at hstrip
      obtain ⟨more, hlower, -⟩ := unicode.lower_ascii (name.sql ++ [c]) (rstrip rest) (by
        intro e he
        rw [List.mem_append, List.mem_singleton] at he
        obtain he | rfl := he
        · exact (name.sql_plain e he).1
        · obtain rfl | rfl := hc <;> decide)
      rw [sqlTypeFrom, hstrip, hlower]
      have hkind : kindOf ((name.sql ++ [c]).map Char.toLower ++ more) = none := by
        obtain rfl | rfl := hc <;> cases name <;> rfl
      dsimp only
      rw [hkind]
      refine scalar_marked unicode hc ?_ d
      have hname : '(' ∉ (name.sql.map Char.toLower).filter (· ≠ ' ') := by cases name <;> decide
      have hchar : c.toLower = c ∧ c ≠ ' ' ∧ c ≠ '(' := by obtain rfl | rfl := hc <;> decide
      rw [List.map_append, List.map_singleton, hchar.1, List.append_assoc, List.singleton_append,
        List.filter_append, List.filter_cons_of_pos (by simpa using hchar.2.1)]
      exact mem_partition hname hchar.2.2

theorem primitive_read (name : Primitive) (n : Nat) (hstrip : strip y = name.sql) :
    sqlTypeFrom unicode (n + 1) y = .ok (.primitive name.deltaName) := by
  obtain ⟨more, hlower, hmore⟩ :=
    unicode.lower_ascii name.sql [] fun c hc => (name.sql_plain c hc).1
  rw [hmore rfl, List.append_nil, List.append_nil] at hlower
  rw [sqlTypeFrom, hstrip, hlower]
  cases name <;> rfl

variable {rest : Text}

theorem readDigits_append {digits : Text} (hdigits : ∀ c ∈ digits, c.isDigit = true)
    (hrest : ∀ c ∈ rest.head?, unicode.digit c = none) (value : Nat) :
    readDigits unicode value (digits ++ rest) = (Nat.ofDigitChars 10 digits value, rest) := by
  induction digits generalizing value with
  | nil =>
    cases rest with
    | nil => rfl
    | cons c rest =>
      rw [List.nil_append, readDigits, hrest c rfl]
      rfl
  | cons c digits ih =>
    have hc := hdigits c (by simp)
    have hbounds := digit_plain hc
    have hdigit := unicode.digit_ascii c (by omega)
    rw [if_pos hc] at hdigit
    rw [List.cons_append, readDigits, hdigit]
    dsimp only
    rw [ih fun d hd => hdigits d (by simp [hd]), Nat.ofDigitChars_cons]
    rfl

theorem readNumber_digits (n : Nat) (hrest : ∀ c ∈ rest.head?, unicode.digit c = none) :
    readNumber unicode (Nat.toDigits 10 n ++ rest) = some (n, rest) := by
  have hvalue := Nat.ofDigitChars_toDigits (b := 10) (n := n) (by decide) (by decide)
  obtain ⟨c, cs, hcons⟩ := List.exists_cons_of_ne_nil (Nat.toDigits_ne_nil (n := n) (b := 10))
  have hdigits := digits_ascii n
  rw [hcons] at hvalue hdigits ⊢
  have hc := hdigits c (by simp)
  have hbounds := digit_plain hc
  have hdigit := unicode.digit_ascii c (by omega)
  rw [if_pos hc] at hdigit
  rw [List.cons_append, readNumber, hdigit, Option.map_some,
    readDigits_append unicode (fun d hd => hdigits d (by simp [hd])) hrest]
  rw [Nat.ofDigitChars_cons, Nat.mul_zero, Nat.zero_add] at hvalue
  exact congrArg (fun value => some (value, rest)) hvalue

theorem digit_mark {c : Char} (hc : c = ',' ∨ c = ')' ∨ c = '>') : unicode.digit c = none := by
  rw [unicode.digit_ascii c (by obtain rfl | rfl | rfl := hc <;> decide)]
  obtain rfl | rfl | rfl := hc <;> rfl

/-- The arguments of a decimal, and what may stand behind them. -/
def decimalBody (precision scale : Nat) : Text :=
  Nat.toDigits 10 precision ++ ',' :: Nat.toDigits 10 scale

theorem decimalArgs_body (precision scale : Nat) (rest : Text) :
    decimalArgs unicode (decimalBody precision scale ++ ')' :: rest) =
      if rest = [] then some (precision, scale) else none := by
  have hmark : ∀ (mark : Char) (more : Text), mark = ',' ∨ mark = ')' ∨ mark = '>' →
      ∀ c ∈ (mark :: more).head?, unicode.digit c = none := by
    rintro mark more hmark c hc
    rw [List.head?_cons, Option.mem_def, Option.some.injEq] at hc
    exact digit_mark unicode (hc ▸ hmark)
  have hprecision := readNumber_digits unicode precision
    (hmark ',' (Nat.toDigits 10 scale ++ ')' :: rest) (Or.inl rfl))
  have hscale := readNumber_digits unicode scale (hmark ')' rest (Or.inr (Or.inl rfl)))
  unfold decimalArgs
  rw [decimalBody, List.append_assoc, List.cons_append, hprecision]
  simp only [Option.bind_eq_bind, Option.bind_some, hscale]
  simp

theorem decimalArgs_short (precision : Nat) :
    decimalArgs unicode (Nat.toDigits 10 precision) = none := by
  have hnone : ∀ c ∈ ([] : Text).head?, unicode.digit c = none := by simp
  have hprecision := readNumber_digits unicode precision hnone
  rw [List.append_nil] at hprecision
  unfold decimalArgs
  rw [hprecision]
  rfl

theorem map_toLower {text : Text} (h : ∀ c ∈ text, c.toNat < 65) :
    text.map Char.toLower = text := by
  refine (List.map_congr_left fun c hc => ?_).trans (List.map_id _)
  have hsmall := h c hc
  rw [id, ← Char.toNat_inj, toNat_toLower, if_neg (by omega)]

theorem decimalBody_small (precision scale : Nat) : ∀ c ∈ decimalBody precision scale,
    c.toNat < 65 ∧ c ≠ ' ' ∧ c ≠ '>' := by
  intro c hc
  rw [decimalBody, List.mem_append, List.mem_cons] at hc
  have hdigit : ∀ n, c ∈ Nat.toDigits 10 n → c.toNat < 65 ∧ c ≠ ' ' ∧ c ≠ '>' := by
    intro n hc
    have hdigit := digits_ascii n c hc
    have hbounds := digit_plain hdigit
    exact ⟨by omega, digit_ne hdigit (by decide), digit_ne hdigit (by decide)⟩
  obtain hc | rfl | hc := hc
  · exact hdigit _ hc
  · decide
  · exact hdigit _ hc

theorem scalar_decimal (raw args : Text) :
    scalar unicode raw (['d', 'e', 'c', 'i', 'm', 'a', 'l', '('] ++ args) =
      decimalFrom unicode raw (args.filter (· ≠ ' ')) := by
  have hname : (['d', 'e', 'c', 'i', 'm', 'a', 'l', '('] ++ args).filter (· ≠ ' ') =
      ['d', 'e', 'c', 'i', 'm', 'a', 'l', '('] ++ args.filter (· ≠ ' ') := by
    rw [List.filter_append]
    rfl
  have hread : partition '(' (['d', 'e', 'c', 'i', 'm', 'a', 'l', '('] ++ args.filter (· ≠ ' ')) =
      (['d', 'e', 'c', 'i', 'm', 'a', 'l'], some (args.filter (· ≠ ' '))) := rfl
  have hhead : aliased (String.ofList ['d', 'e', 'c', 'i', 'm', 'a', 'l']) = "decimal" := by decide
  unfold scalar
  rw [hname, hread]
  dsimp only
  rw [hhead, if_pos rfl]

theorem decimal_reads {args rest y : Text} (hargs : ∀ c ∈ args, c.toNat < 65 ∧ c ≠ ' ')
    (hstrip : strip y = ['D', 'E', 'C', 'I', 'M', 'A', 'L', '('] ++ args ++ rest) (n : Nat) :
    ∃ more, sqlTypeFrom unicode (n + 1) y = decimalFrom unicode y (args ++ more) ∧
      (rest = [] → more = []) := by
  obtain ⟨more, hlower, hmore⟩ := unicode.lower_ascii
    (['D', 'E', 'C', 'I', 'M', 'A', 'L', '('] ++ args) rest (by
      intro c hc
      rw [List.mem_append] at hc
      obtain hc | hc := hc
      · revert c
        decide
      · have hsmall := (hargs c hc).1
        omega)
  have hname : (['D', 'E', 'C', 'I', 'M', 'A', 'L', '('] ++ args).map Char.toLower =
      ['d', 'e', 'c', 'i', 'm', 'a', 'l', '('] ++ args := by
    rw [List.map_append, map_toLower fun c hc => (hargs c hc).1]
    rfl
  have hfilter : args.filter (· ≠ ' ') = args :=
    List.filter_eq_self.mpr fun c hc => by simpa using (hargs c hc).2
  refine ⟨more.filter (· ≠ ' '), ?_, fun hnil => by rw [hmore hnil]; rfl⟩
  rw [sqlTypeFrom, hstrip, hlower, hname, List.append_assoc]
  have hkind : kindOf (['d', 'e', 'c', 'i', 'm', 'a', 'l', '('] ++ (args ++ more)) = none := rfl
  dsimp only
  rw [hkind]
  dsimp only
  rw [scalar_decimal, List.filter_append, hfilter]

variable {precision scale : Nat}

theorem decimal_read (range : 0 < precision ∧ precision ≤ 38 ∧ scale ≤ precision) (n : Nat)
    (hstrip : strip y = (SqlType.decimal precision scale range).text) :
    sqlTypeFrom unicode (n + 1) y = .ok (.primitive (decimalType precision scale)) := by
  rw [SqlType.text, List.append_assoc, ← decimalBody, ← List.append_nil (_ ++ (_ ++ _))] at hstrip
  have hargs : ∀ c ∈ decimalBody precision scale ++ [')'], c.toNat < 65 ∧ c ≠ ' ' := by
    intro c hc
    rw [List.mem_append, List.mem_singleton] at hc
    obtain hc | rfl := hc
    · exact ⟨(decimalBody_small _ _ c hc).1, (decimalBody_small _ _ c hc).2.1⟩
    · decide
  obtain ⟨more, hread, hmore⟩ := decimal_reads unicode hargs hstrip n
  rw [hread, hmore rfl, List.append_nil, decimalFrom, decimalArgs_body, if_pos rfl]
  dsimp only
  rw [if_pos range]

omit unicode in
theorem digit_solid {c : Char} (h : c.isDigit = true) : isSpace c = false := by
  have hbounds := digit_plain h
  simp only [isSpace, List.mem_cons, List.not_mem_nil, or_false, decide_eq_false_iff_not]
  omega

omit unicode in
theorem decimal_short_solid (precision : Nat) :
    Solid (['D', 'E', 'C', 'I', 'M', 'A', 'L', '('] ++ Nat.toDigits 10 precision) := by
  obtain ⟨init, d, hlast⟩ := (List.eq_nil_or_concat (Nat.toDigits 10 precision)).resolve_left
    Nat.toDigits_ne_nil
  refine ⟨⟨'D', rfl, by decide⟩, d, ?_, digit_solid (digits_ascii precision d (by simp [hlast]))⟩
  rw [hlast, List.getLast?_append]
  simp

omit unicode in
theorem decimal_short {range : 0 < precision ∧ precision ≤ 38 ∧ scale ≤ precision} {c : Char}
    (hc : atEnd c) (heq : (SqlType.decimal precision scale range).text = x ++ c :: rest) :
    x = ['D', 'E', 'C', 'I', 'M', 'A', 'L', '('] ++ Nat.toDigits 10 precision := by
  have hplain : ∀ n, ∀ e ∈ Nat.toDigits 10 n, e ≠ ',' := fun n e he =>
    digit_ne (digits_ascii n e he) (by decide)
  rw [SqlType.text] at heq
  obtain rfl | rfl := hc
  · rw [← List.append_assoc, List.append_assoc _ (_ :: _), List.cons_append] at heq
    obtain ⟨hfirst, -⟩ | hoff := Bracketed.append_mark_cases heq
    · exact hfirst.symm
    · have hmem : ',' ∈ Nat.toDigits 10 precision ∨ ',' ∈ Nat.toDigits 10 scale := by
        cases hoff with
        | short he hsplit =>
          subst he
          refine Or.inl ?_
          have hmem := congrArg (',' ∈ ·) hsplit
          simpa using hmem
        | @long more e he hsplit =>
          subst he
          rw [hsplit, List.append_assoc, List.append_cancel_left_eq] at heq
          have hmem := congrArg (',' ∈ ·) (List.tail_eq_of_cons_eq heq)
          exact Or.inr (by simpa using hmem)
      obtain hmem | hmem := hmem
      · exact absurd rfl (hplain _ _ hmem)
      · exact absurd rfl (hplain _ _ hmem)
  · have hmem := congrArg ('>' ∈ ·) heq
    rw [← decimalBody] at hmem
    have hbody : '>' ∈ decimalBody precision scale := by simpa using hmem
    exact absurd rfl (decimalBody_small _ _ _ hbody).2.2

/-- A text that stops short of a decimal's, or goes on past it, is read as no type. -/
theorem decimal_off (range : 0 < precision ∧ precision ≤ 38 ∧ scale ≤ precision) {n : Nat}
    (hoff : Off atEnd (SqlType.decimal precision scale range).text x) (hstrip : strip y = strip x)
    (d : DataType) : sqlTypeFrom unicode n y ≠ .ok d := by
  have hfrom : ∀ args : Text, decimalArgs unicode args = none →
      decimalFrom unicode y args ≠ .ok d := by
    intro args hargs h
    rw [decimalFrom, hargs] at h
    cases h
  cases n with
  | zero => exact fun h => by cases h
  | succ n =>
    cases hoff with
    | @short rest c hc heq =>
      have hx := decimal_short hc heq
      rw [hx, strip_solid (decimal_short_solid precision), ← List.append_nil (_ ++ _)] at hstrip
      have hargs : ∀ e ∈ Nat.toDigits 10 precision, e.toNat < 65 ∧ e ≠ ' ' := by
        intro e he
        have hsmall := decimalBody_small precision scale e (by simp [decimalBody, he])
        exact ⟨hsmall.1, hsmall.2.1⟩
      obtain ⟨more, hread, hmore⟩ := decimal_reads unicode hargs hstrip n
      rw [hread, hmore rfl, List.append_nil]
      exact hfrom _ (decimalArgs_short unicode precision)
    | @long rest c hc heq =>
      have hsplit : x = (SqlType.decimal precision scale range).text ++ [c] ++ rest := by
        simp [heq]
      have htext : (SqlType.decimal precision scale range).text ++ [c] =
          ['D', 'E', 'C', 'I', 'M', 'A', 'L', '('] ++
            (decimalBody precision scale ++ ([')'] ++ [c])) := by
        simp [SqlType.text, decimalBody]
      rw [hsplit, strip_append ((SqlType.text_solid _).snoc (atEnd_solid hc)), htext] at hstrip
      have hargs : ∀ e ∈ decimalBody precision scale ++ ([')'] ++ [c]),
          e.toNat < 65 ∧ e ≠ ' ' := by
        intro e he
        rw [List.mem_append] at he
        obtain he | he := he
        · exact ⟨(decimalBody_small _ _ e he).1, (decimalBody_small _ _ e he).2.1⟩
        · obtain rfl | rfl := hc <;> revert e <;> decide
      obtain ⟨more, hread, -⟩ := decimal_reads unicode hargs hstrip n
      rw [hread, List.append_assoc]
      refine hfrom _ ?_
      rw [List.append_assoc, List.singleton_append, decimalArgs_body, if_neg (by simp)]

end

end DeltaSwamp.TypeText
