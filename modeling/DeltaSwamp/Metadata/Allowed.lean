import DeltaSwamp.Metadata.ColumnType
import DeltaSwamp.Run

/-!
# The changes that are allowed

`_widening_allowed` on type names is the order on the types they name. What
`alter_column_type` or `merge_schema` accepts is accepted over several steps at
once.
-/

namespace DeltaSwamp.Metadata

open ColumnType List

def namedType : String → Option ColumnType
  | "byte" => some (.integral .byte)
  | "short" => some (.integral .short)
  | "integer" => some (.integral .integer)
  | "long" => some (.integral .long)
  | "float" => some .float
  | "double" => some .double
  | "date" => some .date
  | "timestamp_ntz" => some .timestampNtz
  | _ => none

section
variable (py : Python)

/-- The type a name is of, spaces aside. -/
def columnType (text : String) : Option ColumnType :=
  match namedType (withoutSpaces text) with
  | some t => some t
  | none => (decimalOf py (withoutSpaces text)).map fun d => .decimal d.1 d.2

/-- The text is a name of the type. -/
def Spelled (text : String) : ColumnType → Prop
  | .integral i => text = i.name
  | .float => text = "float"
  | .double => text = "double"
  | .date => text = "date"
  | .timestampNtz => text = "timestamp_ntz"
  | .decimal p s => decimalOf py text = some (p, s)

end

section
variable {py : Python} {old new text a b c : String} {t u : ColumnType}

theorem decimalOf_named (h : namedType text = some t) : decimalOf py text = none := by
  unfold namedType at h
  split at h
  all_goals first | rfl | cases h

theorem namedType_spelled (h : namedType text = some t) : Spelled py text t := by
  unfold namedType at h
  split at h <;> cases h <;> rfl

theorem columnType_eq_some_iff :
    columnType py text = some t ↔ Spelled py (withoutSpaces text) t := by
  unfold columnType
  constructor
  · intro h
    split at h
    · rename_i u hnamed
      cases h
      exact namedType_spelled hnamed
    · obtain ⟨⟨p, s⟩, hdecimal, rfl⟩ := Option.map_eq_some_iff.mp h
      exact hdecimal
  · intro h
    cases t with
    | integral i => rw [Spelled] at h; rw [h]; cases i <;> rfl
    | float | double | date | timestampNtz => rw [Spelled] at h; rw [h]; rfl
    | decimal p s =>
      rw [Spelled] at h
      cases hnamed : namedType (withoutSpaces text) with
      | none => rw [h]; rfl
      | some u => rw [decimalOf_named hnamed] at h; cases h

theorem integralRank_name (i : Integral) : integralRank i.name = some i.rank := by cases i <;> rfl

theorem integralDigits_name (i : Integral) : integralDigits i.name = some i.digits := by
  cases i <;> rfl

theorem exists_of_integralRank {r : Nat} (h : integralRank text = some r) :
    ∃ i : Integral, text = i.name ∧ i.rank = r := by
  unfold integralRank at h
  split at h <;> cases h
  · exact ⟨.byte, rfl, rfl⟩
  · exact ⟨.short, rfl, rfl⟩
  · exact ⟨.integer, rfl, rfl⟩
  · exact ⟨.long, rfl, rfl⟩

theorem exists_of_integralDigits {d : Nat} (h : integralDigits text = some d) :
    ∃ i : Integral, text = i.name ∧ i.digits = d := by
  unfold integralDigits at h
  split at h <;> cases h
  · exact ⟨.byte, rfl, rfl⟩
  · exact ⟨.short, rfl, rfl⟩
  · exact ⟨.integer, rfl, rfl⟩
  · exact ⟨.long, rfl, rfl⟩

@[simp] theorem withoutSpaces_withoutSpaces (text : String) :
    withoutSpaces (withoutSpaces text) = withoutSpaces text := by
  simp [withoutSpaces]

theorem withoutSpaces_of_spelled (h : Spelled py text t) (ht : ∀ p s, t ≠ .decimal p s) :
    withoutSpaces text = text := by
  cases t with
  | integral i => cases h; cases i <;> rfl
  | float | double | date | timestampNtz => cases h; rfl
  | decimal p s => exact absurd rfl (ht p s)

/-- What `_widening_allowed` reads of the type it changes. -/
def Origin (py : Python) (text : String) : ColumnType → Prop
  | .decimal p s => Spelled py (withoutSpaces text) (.decimal p s)
  | t => Spelled py text t

theorem Origin.columnType (h : Origin py text t) : columnType py text = some t := by
  rw [columnType_eq_some_iff]
  cases t with
  | decimal p s => exact h
  | integral i =>
    have hspelled : Spelled py text (.integral i) := h
    rw [withoutSpaces_of_spelled hspelled (by simp)]
    exact h
  | float | double | date | timestampNtz => cases h; rfl

theorem decimalOf_integral (i : Integral) : decimalOf py (withoutSpaces i.name) = none := by
  cases i <;> rfl

theorem decimalWidening_iff {precision scale : Nat} :
    decimalWidening py old precision scale = true ↔
      ∃ t, Origin py old t ∧ t.Widens (.decimal precision scale) := by
  unfold decimalWidening
  constructor
  · intro h
    split_ifs at h with hrange
    rw [not_or, not_not, not_lt] at hrange
    obtain ⟨⟨hpos, hmax⟩, hscale⟩ := hrange
    split at h
    · rename_i p s hdecimal
      simp only [decide_eq_true_eq] at h
      exact ⟨.decimal p s, hdecimal, hpos, hmax, hscale, h⟩
    · split at h
      · rename_i digits hdigits
        obtain ⟨i, rfl, rfl⟩ := exists_of_integralDigits hdigits
        exact ⟨.integral i, rfl, hmax, hscale, by simpa using h⟩
      · cases h
  · rintro ⟨t, horigin, hwidens⟩
    cases t with
    | integral i =>
      cases horigin
      obtain ⟨hmax, hscale, hdigits⟩ := hwidens
      have hpos : 0 < precision := by cases i <;> simp [Integral.digits] at hdigits <;> omega
      rw [if_neg (by omega), decimalOf_integral, integralDigits_name]
      simpa using hdigits
    | decimal p s =>
      obtain ⟨hpos, hmax, hscale, h⟩ := hwidens
      have hdecimal : decimalOf py (withoutSpaces old) = some (p, s) := horigin
      rw [if_neg (by omega), hdecimal]
      simpa using h
    | float | double | date | timestampNtz => exact hwidens.elim

theorem wideningAllowed_decimal {precision scale : Nat}
    (hnew : decimalOf py new = some (precision, scale)) (hne : old ≠ new) :
    wideningAllowed py old new = decimalWidening py old precision scale := by
  have hrank : integralRank new = none := by
    rw [Option.eq_none_iff_forall_not_mem]
    intro r hr
    obtain ⟨i, rfl, -⟩ := exists_of_integralRank hr
    cases i <;> cases hnew
  have hdouble : new ≠ "double" := by
    rintro rfl
    cases hnew
  have htimestamp : new ≠ "timestamp_ntz" := by
    rintro rfl
    cases hnew
  simp [wideningAllowed, hne, hrank, hdouble, htimestamp, hnew]

/-- A widening is allowed exactly from a type read to a wider one that is spelled. -/
theorem wideningAllowed_iff : wideningAllowed py old new = true ↔
    old ≠ new ∧ ∃ t u, Origin py old t ∧ Spelled py new u ∧ t.Widens u := by
  constructor
  · intro h
    unfold wideningAllowed at h
    by_cases hne : old = new
    · simp [hne] at h
    · rw [if_neg hne] at h
      apply And.intro hne
      split at h
      · rename_i i j hi hj
        obtain ⟨i, rfl, rfl⟩ := exists_of_integralRank hi
        obtain ⟨j, rfl, rfl⟩ := exists_of_integralRank hj
        rw [decide_eq_true_eq] at h
        exact ⟨.integral i, .integral j, rfl, rfl, h⟩
      · split_ifs at h with hfloat hint hdate
        · simp only [Bool.and_eq_true, decide_eq_true_eq] at hfloat
          exact ⟨.float, .double, hfloat.1, hfloat.2, trivial⟩
        · simp only [Bool.and_eq_true, Bool.or_eq_true, decide_eq_true_eq] at hint
          obtain ⟨(rfl | rfl) | rfl, rfl⟩ := hint
          · exact ⟨.integral .byte, .double, rfl, rfl, by simp [Widens]⟩
          · exact ⟨.integral .short, .double, rfl, rfl, by simp [Widens]⟩
          · exact ⟨.integral .integer, .double, rfl, rfl, by simp [Widens]⟩
        · simp only [Bool.and_eq_true, decide_eq_true_eq] at hdate
          exact ⟨.date, .timestampNtz, hdate.1, hdate.2, trivial⟩
        · split at h
          · rename_i p s hnew
            obtain ⟨t, horigin, hwidens⟩ := decimalWidening_iff.mp h
            exact ⟨t, .decimal p s, horigin, hnew, hwidens⟩
          · cases h
  · rintro ⟨hne, t, u, horigin, hspelled, hwidens⟩
    cases u with
    | integral j =>
      cases t with
      | integral i =>
        cases horigin
        cases hspelled
        rw [wideningAllowed, if_neg hne, integralRank_name, integralRank_name]
        exact decide_eq_true hwidens
      | float | double | date | timestampNtz | decimal => exact hwidens.elim
    | double =>
      cases hspelled
      cases t with
      | integral i =>
        cases horigin
        cases i with
        | byte | short | integer => rfl
        | long => exact absurd rfl hwidens
      | float => cases horigin; rfl
      | double | date | timestampNtz | decimal => exact hwidens.elim
    | timestampNtz =>
      cases hspelled
      cases t with
      | date => cases horigin; rfl
      | integral | float | double | timestampNtz | decimal => exact hwidens.elim
    | decimal p s =>
      rw [wideningAllowed_decimal hspelled hne, decimalWidening_iff]
      exact ⟨t, horigin, hwidens⟩
    | float => exact absurd hwidens not_widens_float
    | date => cases t <;> exact hwidens.elim

theorem readDigits_filter (hspace : py.digit ' ' = none) {value n : Nat} {text rest : List Char}
    (h : readDigits py value text = (n, rest)) (hrest : rest.head? ≠ some ' ') :
    readDigits py value (text.filter (· ≠ ' ')) = (n, rest.filter (· ≠ ' ')) := by
  induction text generalizing value with
  | nil =>
    cases h
    rfl
  | cons c text ih =>
    rw [readDigits] at h
    cases hdigit : py.digit c with
    | some d =>
      have hc : c ≠ ' ' := by
        rintro rfl
        rw [hspace] at hdigit
        cases hdigit
      rw [hdigit] at h
      rw [filter_cons_of_pos (by simpa using hc), readDigits, hdigit]
      exact ih h
    | none =>
      rw [hdigit] at h
      cases h
      have hc : c ≠ ' ' := by simpa using hrest
      rw [filter_cons_of_pos (by simpa using hc), readDigits, hdigit]

theorem readNumber_filter (hspace : py.digit ' ' = none) {n : Nat} {text rest : List Char}
    (h : readNumber py text = some (n, rest)) (hrest : rest.head? ≠ some ' ') :
    readNumber py (text.filter (· ≠ ' ')) = some (n, rest.filter (· ≠ ' ')) := by
  cases text with
  | nil => cases h
  | cons c text =>
    rw [readNumber] at h
    obtain ⟨d, hdigit, h⟩ := Option.map_eq_some_iff.mp h
    have hc : c ≠ ' ' := by
      rintro rfl
      rw [hspace] at hdigit
      cases hdigit
    rw [filter_cons_of_pos (by simpa using hc), readNumber, hdigit, Option.map_some,
      readDigits_filter hspace h hrest]

theorem dropWhile_filter {text : List Char} (h : (text.dropWhile py.isSpace).head? ≠ some ' ') :
    (text.filter (· ≠ ' ')).dropWhile py.isSpace =
      (text.dropWhile py.isSpace).filter (· ≠ ' ') := by
  induction text with
  | nil => rfl
  | cons c text ih =>
    by_cases hc : c = ' '
    · subst hc
      by_cases hblank : py.isSpace ' ' = true
      · rw [dropWhile_cons_of_pos hblank] at h ⊢
        rw [filter_cons_of_neg (by simp), ih h]
      · rw [dropWhile_cons_of_neg hblank] at h
        simp at h
    · rw [filter_cons_of_pos (by simpa using hc)]
      by_cases hblank : py.isSpace c = true
      · rw [dropWhile_cons_of_pos hblank] at h ⊢
        rw [dropWhile_cons_of_pos hblank, ih h]
      · rw [dropWhile_cons_of_neg hblank, dropWhile_cons_of_neg hblank,
          filter_cons_of_pos (by simpa using hc)]

theorem head_of_readNumber (hspace : py.digit ' ' = none) {n : Nat} {text rest : List Char}
    (h : readNumber py text = some (n, rest)) : text.head? ≠ some ' ' := by
  cases text with
  | nil => cases h
  | cons c text =>
    intro hc
    cases hc
    rw [readNumber, hspace] at h
    cases h

theorem decimalOf_withoutSpaces (hspace : py.digit ' ' = none) {d : Nat × Nat}
    (h : decimalOf py text = some d) : decimalOf py (withoutSpaces text) = some d := by
  unfold decimalOf at h ⊢
  obtain ⟨inside, hinside, h⟩ := Option.bind_eq_some_iff.mp h
  obtain ⟨start, htext, hstart⟩ := List.dropPrefix?_eq_some_iff.mp hinside
  rw [beq_iff_eq] at hstart
  subst hstart
  have hinside' : (withoutSpaces text).toList.dropPrefix? "decimal(".toList =
      some (inside.filter (· ≠ ' ')) := by
    rw [withoutSpaces, String.toList_ofList, htext, filter_append]
    exact List.dropPrefix?_eq_some_iff.mpr ⟨_, rfl, rfl⟩
  obtain ⟨⟨precision, rest⟩, hprecision, h⟩ := Option.bind_eq_some_iff.mp h
  simp only at h
  split at h
  · rename_i rest
    obtain ⟨⟨scale, tail⟩, hscale, h⟩ := Option.bind_eq_some_iff.mp h
    simp only at h
    split_ifs at h with htail
    subst htail
    have hprecision' := readNumber_filter hspace hprecision (by simp)
    have hscale' := readNumber_filter hspace hscale (by simp)
    rw [← dropWhile_filter (head_of_readNumber hspace hscale)] at hscale'
    apply Option.bind_eq_some_iff.mpr
    refine ⟨_, hinside', Option.bind_eq_some_iff.mpr ⟨_, hprecision', ?_⟩⟩
    rw [filter_cons_of_pos (by simp)]
    exact Option.bind_eq_some_iff.mpr ⟨_, hscale', by simpa using h⟩
  · cases h

end

open Arrow (Denoted)

/-- One of the two functions takes the change, as far as it depends on the types. On
a partition column `merge_schema` takes none. -/
def Permitted (py : Python) (partition : Bool) (old new : String) : Prop :=
  (wideningAllowed py old new = true ∧
      (partition = true → partitionKeepsValues py old new = true)) ∨
    (partition = false ∧ wideningAllowed py (withoutSpaces old) new = true)

/-- A permitted change to a name as the two functions write it. -/
structure TypeChange (py : Python) (partition : Bool) (old new : String) : Prop where
  permitted : Permitted py partition old new
  written : withoutSpaces new = new

section
variable {py : Python} {partition : Bool} {old new a b c text : String} {t u : ColumnType}

theorem origin_withoutSpaces : Origin py (withoutSpaces text) t ↔ columnType py text = some t := by
  rw [columnType_eq_some_iff]
  cases t with
  | decimal p s => rw [Origin, withoutSpaces_withoutSpaces]
  | integral | float | double | date | timestampNtz => exact Iff.rfl

theorem columnType_of_spelled (h : Spelled py text t) (hwritten : withoutSpaces text = text) :
    columnType py text = some t := by
  rwa [columnType_eq_some_iff, hwritten]

theorem Permitted.widens (h : Permitted py partition old new) (hnew : withoutSpaces new = new) :
    ∃ t u, columnType py old = some t ∧ columnType py new = some u ∧ t.Widens u := by
  obtain ⟨h, -⟩ | ⟨-, h⟩ := h
  · obtain ⟨-, t, u, horigin, hspelled, hwidens⟩ := wideningAllowed_iff.mp h
    exact ⟨t, u, horigin.columnType, columnType_of_spelled hspelled hnew, hwidens⟩
  · obtain ⟨-, t, u, horigin, hspelled, hwidens⟩ := wideningAllowed_iff.mp h
    exact ⟨t, u, origin_withoutSpaces.mp horigin, columnType_of_spelled hspelled hnew, hwidens⟩

theorem widens_self (h : t.Widens t) : ∃ p s, t = .decimal p s := by
  cases t with
  | integral i => exact absurd h (lt_irrefl i.rank)
  | decimal p s => exact ⟨p, s, rfl⟩
  | float | double | date | timestampNtz => exact h.elim

theorem partitionKeepsValues_iff : partitionKeepsValues py old new = true ↔
    old ≠ "date" ∧ ∀ d, decimalOf py new = some d →
      d.2 = (decimalOf py old).elim 0 Prod.snd := by
  unfold partitionKeepsValues
  cases decimalOf py new with
  | none => simp
  | some d => simp

theorem decimalOf_of_origin (h : Origin py text t) (ht : ∀ p s, t ≠ .decimal p s) :
    decimalOf py text = none := by
  cases t with
  | integral i => cases h; cases i <;> rfl
  | float | double | date | timestampNtz => cases h; rfl
  | decimal p s => exact absurd rfl (ht p s)

theorem ne_decimal_of_widens (h : t.Widens u) (hu : ∀ p s, u ≠ .decimal p s) :
    ∀ p s, t ≠ .decimal p s := by
  rintro p s rfl
  cases u with
  | decimal p s => exact hu p s rfl
  | integral | float | double | date | timestampNtz => exact h.elim

theorem partitionKeepsValues_trans (hab : wideningAllowed py a b = true)
    (hkeeps : partitionKeepsValues py a b = true) (hkeeps' : partitionKeepsValues py b c = true) :
    partitionKeepsValues py a c = true := by
  rw [partitionKeepsValues_iff] at hkeeps hkeeps' ⊢
  apply And.intro hkeeps.1
  intro d hd
  rw [hkeeps'.2 d hd]
  cases hdecimal : decimalOf py b with
  | some e => exact hkeeps.2 e hdecimal
  | none =>
    obtain ⟨-, t, u, ht, hu, hwidens⟩ := wideningAllowed_iff.mp hab
    have hplain : ∀ p s, u ≠ .decimal p s := by
      rintro p s rfl
      have hsome : decimalOf py b = some (p, s) := hu
      rw [hdecimal] at hsome
      cases hsome
    rw [decimalOf_of_origin ht (ne_decimal_of_widens hwidens hplain)]

theorem scale_of_keeps (hspace : py.digit ' ' = none) (hallowed : wideningAllowed py old new = true)
    (hkeeps : partitionKeepsValues py old new = true) (hnew : withoutSpaces new = new)
    (ht : columnType py old = some t) (hu : columnType py new = some u) :
    u.scale = t.scale ∧ t ≠ .date := by
  obtain ⟨hdate, hscale⟩ := partitionKeepsValues_iff.mp hkeeps
  obtain ⟨-, t', u', horigin, hspelled, hwidens⟩ := wideningAllowed_iff.mp hallowed
  cases ht.symm.trans horigin.columnType
  cases hu.symm.trans (columnType_of_spelled hspelled hnew)
  constructor
  · cases u with
    | decimal p s =>
      have hs : s = _ := hscale (p, s) hspelled
      cases t with
      | decimal p₀ s₀ =>
        have hstripped : decimalOf py (withoutSpaces old) = some (p₀, s₀) := horigin
        obtain ⟨-, -, -, -, hle, -⟩ := hwidens
        cases hraw : decimalOf py old with
        | none =>
          rw [hraw, Option.elim_none] at hs
          simp only [scale]
          omega
        | some d =>
          rw [decimalOf_withoutSpaces hspace hraw] at hstripped
          cases hstripped
          rw [hraw] at hs
          exact hs
      | integral | float | double | date | timestampNtz =>
        rw [decimalOf_of_origin horigin (by simp)] at hs
        exact hs
    | integral | float | double | date | timestampNtz =>
      have hplain := ne_decimal_of_widens hwidens (by simp)
      cases t with
      | decimal p s => exact absurd rfl (hplain p s)
      | integral | float | double | date | timestampNtz => rfl
  · rintro rfl
    exact hdate horigin

/-- Two changes in a row are one, or come back. -/
theorem TypeChange.trans (h : TypeChange py partition a b) (h' : TypeChange py partition b c) :
    a = c ∨ TypeChange py partition a c := by
  obtain ⟨t, u, ht, hu, hwidens⟩ := h.permitted.widens h.written
  obtain ⟨u', v, hu', hv, hwidens'⟩ := h'.permitted.widens h'.written
  cases hu.symm.trans hu'
  have hdirect := hwidens.trans hwidens'
  have hspelled : Spelled py c v := by
    rw [columnType_eq_some_iff, h'.written] at hv
    exact hv
  by_cases hne : a = c
  · exact .inl hne
  · right
    refine ⟨?_, h'.written⟩
    obtain ⟨hab, hkeeps⟩ | ⟨hpartition, hab⟩ := h.permitted
    · left
      obtain ⟨-, t', -, horigin, -⟩ := wideningAllowed_iff.mp hab
      cases ht.symm.trans horigin.columnType
      refine ⟨wideningAllowed_iff.mpr ⟨hne, t, v, horigin, hspelled, hdirect⟩, fun hpartition => ?_⟩
      obtain ⟨-, hkeeps'⟩ | ⟨hnot, -⟩ := h'.permitted
      · exact partitionKeepsValues_trans hab (hkeeps hpartition) (hkeeps' hpartition)
      · rw [hpartition] at hnot
        cases hnot
    · by_cases hsame : withoutSpaces a = c
      · -- Only another spelling of a decimal comes back to the type without its spaces.
        have hback : columnType py (withoutSpaces a) = some t := by
          rw [← origin_withoutSpaces, withoutSpaces_withoutSpaces]
          exact origin_withoutSpaces.mpr ht
        rw [hsame, hv] at hback
        cases hback
        obtain ⟨p, s, rfl⟩ := widens_self hdirect
        have horigin : Origin py a (.decimal p s) := columnType_eq_some_iff.mp ht
        left
        refine ⟨wideningAllowed_iff.mpr ⟨hne, _, _, horigin, hspelled, hdirect⟩, ?_⟩
        simp [hpartition]
      · right
        exact ⟨hpartition, wideningAllowed_iff.mpr
          ⟨hsame, t, v, origin_withoutSpaces.mpr ht, hspelled, hdirect⟩⟩

theorem direct_of_trail {changes : List (String × String)}
    (h : Trail (TypeChange py partition) a changes b) : a = b ∨ TypeChange py partition a b := by
  refine h.carry (P := fun x => a = x ∨ TypeChange py partition a x) ?_ (.inl rfl)
  rintro x y - hstep (rfl | hreach)
  · exact .inr hstep
  · exact hreach.trans hstep

/-- A value of the type of that name. -/
def HasValue (py : Python) (name : String) (v : Denoted) : Prop :=
  ∃ t, columnType py name = some t ∧ t.Holds v

/-- What a partition value denotes in a column of the type of that name; types that are not
widened as `other` has them. -/
def parseAs (py : Python) (reader : PartitionReader) (other : String → List Char → Option Denoted)
    (name : String) (stored : List Char) : Option Denoted :=
  match columnType py name with
  | some t => reader.parse t stored
  | none => other name stored

variable {reader : PartitionReader} {other : String → List Char → Option Denoted}
  {stored : List Char} {v : Denoted}

theorem TypeChange.hasValue (h : TypeChange py partition old new) (hv : HasValue py old v) :
    HasValue py new v := by
  obtain ⟨t, u, ht, hu, hwidens⟩ := h.permitted.widens h.written
  obtain ⟨t', ht', hv⟩ := hv
  cases ht.symm.trans ht'
  exact ⟨u, hu, hwidens.holds hv⟩

theorem TypeChange.parseAs (hspace : py.digit ' ' = none) (h : TypeChange py true old new)
    (hfloat : old ≠ "float") (hv : parseAs py reader other old stored = some v) :
    parseAs py reader other new stored = some v := by
  obtain ⟨hallowed, hkeeps⟩ | ⟨hnot, -⟩ := h.permitted
  · obtain ⟨-, t, u, horigin, hspelled, hwidens⟩ := wideningAllowed_iff.mp hallowed
    have ht := horigin.columnType
    have hu := columnType_of_spelled hspelled h.written
    obtain ⟨hscale, hdate⟩ := scale_of_keeps hspace hallowed (hkeeps rfl) h.written ht hu
    have hne : t ≠ .float := by
      rintro rfl
      exact hfloat horigin
    simp only [Metadata.parseAs, ht] at hv
    simp only [Metadata.parseAs, hu]
    exact reader.parse_widens hwidens hscale hdate hne hv
  · cases hnot

theorem no_change_to_float : ¬ TypeChange py partition old "float" := by
  intro h
  obtain ⟨t, u, -, hu, hwidens⟩ := h.permitted.widens h.written
  cases hu
  exact not_widens_float hwidens

theorem no_change_of_double : ¬ TypeChange py partition "double" new := by
  intro h
  obtain ⟨t, u, ht, -, hwidens⟩ := h.permitted.widens h.written
  cases ht
  exact not_widens_double hwidens

theorem eq_double_of_float (h : TypeChange py partition "float" new) : new = "double" := by
  obtain ⟨t, u, ht, hu, hwidens⟩ := h.permitted.widens h.written
  cases ht
  rw [columnType_eq_some_iff, h.written] at hu
  cases u with
  | double => exact hu
  | integral | float | date | timestampNtz | decimal => exact hwidens.elim

end

end DeltaSwamp.Metadata
